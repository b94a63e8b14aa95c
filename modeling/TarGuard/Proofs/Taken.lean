import TarGuard.Proofs.Completeness
import TarGuard.Proofs.Limits
import TarGuard.Proofs.Schedule

namespace TarGuard

open FileSystem Extraction

-- The most bytes that an extraction takes from its stream, however many there are.
def Limits.streamBound (l : Limits) : Nat :=
  512 * (l.files.toNat + 1) + l.totalSize.toNat + 511 * l.files.toNat

def TakesAtMost (position : σ → Nat) (n : Nat) (x : EStateM ε σ α) : Prop :=
  ∀ s, position (finalState x s) ≤ position s + n

namespace TakesAtMost

variable {position : σ → Nat} {m n : Nat} {x : EStateM ε σ α}

theorem ends (h : TakesAtMost position n x) (s : σ) :
    Ends x s (fun _ t => position t ≤ position s + n) (fun _ t => position t ≤ position s + n) :=
  Ends.of_finalState (p := fun t => position t ≤ position s + n) (h s)

theorem of_ends (h : ∀ s, Ends x s (fun _ t => position t ≤ position s + n)
    (fun _ t => position t ≤ position s + n)) : TakesAtMost position n x := by
  intro s
  cases hx : x s with
  | ok => rw [finalState_of_ok hx]; exact (h s).of_ok hx
  | error => rw [finalState_of_error hx]; exact (h s).of_error hx

theorem mono (h : TakesAtMost position m x) (hn : m ≤ n) : TakesAtMost position n x :=
  fun s => Nat.le_trans (h s) (Nat.add_le_add_left hn _)

theorem pure (a : α) : TakesAtMost position 0 (Pure.pure a : EStateM ε σ α) :=
  fun _ => Nat.le_refl _

theorem throw (e : ε) : TakesAtMost position 0 (MonadExcept.throw e : EStateM ε σ α) :=
  fun _ => Nat.le_refl _

theorem require (r : Except ε α) :
    TakesAtMost position 0 (TarGuard.require r : EStateM ε σ α) := by
  cases r with
  | ok a => exact pure a
  | error e => exact throw e

theorem bind {f : α → EStateM ε σ β} (hx : TakesAtMost position m x)
    (hf : ∀ a, TakesAtMost position n (f a)) : TakesAtMost position (m + n) (x >>= f) := by
  refine .of_ends fun s => (hx.ends s).bind ?_ ?_
  · intro _ t ht
    omega
  · intro a t ht
    refine ((hf a).ends t).imp ?_ ?_ <;> intro _ u hu <;> omega

theorem withCleanUp {f : σ → σ} (hx : TakesAtMost position n x)
    (hf : ∀ s, position (f s) = position s) : TakesAtMost position n (withCleanUp f x) := by
  refine .of_ends fun s => Ends.withCleanUp ((hx.ends s).imp (fun _ _ h => h) ?_)
  intro _ t ht
  rwa [hf]

end TakesAtMost

namespace Input

theorem takes_of_gather {most n : Nat} {x : EStateM ε Input α}
    (hx : ∀ s, finalState x s = (s.gather most n).2.2) : TakesAtMost Input.delivered n x := by
  intro s
  rw [hx, delivered_gather]
  exact Nat.add_le_add_left (length_gather_le most s n) _

theorem takes_readRecord : TakesAtMost Input.delivered 512 readRecord :=
  (takes_of_gather finalState_readBlock).bind fun _ => .pure _

theorem takes_readChunk (n : Nat) : TakesAtMost Input.delivered n (readChunk n) :=
  takes_of_gather (finalState_readChunk n)

theorem takes_skip (n : Nat) : TakesAtMost Input.delivered n (skip n) :=
  takes_of_gather (finalState_skip n)

theorem takes_skipPayload (h : Header) :
    TakesAtMost Input.delivered (h.size.toNat + (padding h.size).toNat) (skipPayload h) := by
  by_cases hs : h.size.toNat + (padding h.size).toNat < UInt64.size
  case pos =>
    rw [skipPayload, Header.paddedSize, if_pos hs]
    exact takes_skip _
  case neg =>
    rw [skipPayload, Header.paddedSize, if_neg hs]
    exact (TakesAtMost.throw _).mono (Nat.zero_le _)

end Input

abbrev Extraction.Takes (n : Nat) (x : Extraction α) : Prop :=
  TakesAtMost Session.position n x

namespace Extraction

theorem takes_onFiles (x : EStateM ExtractError FileSystem α) : Takes 0 (onFiles x) := by
  refine .of_ends fun s => (Ends.onFiles Ends.any).imp ?_ ?_
  · rintro _ _ ⟨fs, -, rfl⟩
    exact Nat.le_refl _
  · rintro _ _ ⟨fs, -, rfl⟩
    exact Nat.le_refl _

theorem takes_onInput {n : Nat} {x : EStateM ExtractError Input α}
    (hx : TakesAtMost Input.delivered n x) : Takes n (onInput x) := by
  refine .of_ends fun s => (Ends.onInput (hx.ends s.input)).imp ?_ ?_
  · rintro _ _ ⟨input, h, rfl⟩
    exact h
  · rintro _ _ ⟨input, h, rfl⟩
    exact h

theorem takes_count (f : Summary → Summary) : Takes 0 (count f) :=
  fun _ => Nat.le_refl _

end Extraction

namespace Extractor

variable {x : Extractor} {s t : Session} {root : List String} {base : Location} {h : Header}
  {n : Nat}

theorem takes_checkCancelled : Takes 0 x.checkCancelled := by
  refine .of_ends fun s => (checkCancelled_ends x s).imp ?_ ?_
  · rintro _ _ rfl
    exact Nat.le_refl _
  · rintro _ _ ⟨-, rfl⟩
    exact Nat.le_refl _

theorem takes_enforceLimits (size : UInt64) : Takes 0 (x.enforceLimits size) := by
  refine .of_ends fun s => (enforceLimits_ends x size s).imp ?_ ?_
  · rintro _ _ ⟨rfl, -⟩
    exact Nat.le_refl _
  · rintro _ _ ⟨rfl, -⟩
    exact Nat.le_refl _

theorem takes_next (p : Path) : Takes 512 (x.next p) := by
  refine takes_checkCancelled.bind fun _ =>
    (takes_onInput Input.takes_readRecord).bind (n := 0) fun o => ?_
  cases o with
  | none => exact .pure _
  | some b =>
    exact (TakesAtMost.require _).bind (n := 0) fun h =>
      (takes_enforceLimits h.size).bind (n := 0) fun _ =>
        (TakesAtMost.require _).bind (n := 0) fun _ => .pure _

theorem takes_onOutput (call : Option OutputFile.Failure → EStateM ExtractError FileSystem α) :
    Takes 0 (x.onOutput call) :=
  fun s => takes_onFiles (call (x.failure? s.input.delivered)) s

theorem takes_copyPayload (file : OutputFile) (left : Nat) :
    Takes left (x.copyPayload file left) := by
  fun_induction copyPayload x file left with
  | case1 => exact .pure _
  | case2 left hl ih =>
    have hchunk := takes_onInput (Input.takes_readChunk (min left chunkSize))
    refine (takes_checkCancelled.bind fun _ => hchunk.bind fun _ =>
      (takes_onOutput _).bind fun _ => ih).mono ?_
    omega

theorem takes_writeFile (p target : Path) (size : UInt64) :
    Takes (size.toNat + (padding size).toNat) (x.writeFile p target size) := by
  have hfill (file : OutputFile) : Takes (size.toNat + (padding size).toNat)
      (withCleanUp (fun s => { s with files := file.discard s.files }) (x.fillFile file size)) := by
    apply TakesAtMost.withCleanUp
    case hx => exact (takes_copyPayload file _).bind fun _ => takes_onInput (Input.takes_skip _)
    case hf => exact fun _ => rfl
  refine ((takes_onFiles _).bind fun _ => (takes_onOutput _).bind fun file => hfill file).mono ?_
  omega

theorem takes_dispatch (p target : Path) (h : Header) :
    Takes (h.size.toNat + (padding h.size).toNat) (x.dispatch p target h) := by
  have hskip := takes_onInput (Input.takes_skipPayload h)
  cases hk : h.kind with
  | directory =>
    rw [dispatch_directory hk]
    refine ((takes_onFiles _).bind fun _ => hskip.bind fun _ => takes_count _).mono ?_
    omega
  | regular =>
    rw [dispatch_regular hk]
    exact ((takes_writeFile p target h.size).bind fun _ => takes_count _).mono
      (Nat.le_of_eq (Nat.add_zero _))
  | hardLink =>
    rw [dispatch_link (.inl hk)]
    exact (TakesAtMost.throw _).mono (Nat.zero_le _)
  | symbolicLink =>
    rw [dispatch_link (.inr hk)]
    exact (TakesAtMost.throw _).mono (Nat.zero_le _)
  | other flag =>
    rw [dispatch_other hk]
    exact (hskip.bind fun _ => takes_count _).mono
      (Nat.le_of_eq (Nat.add_zero _))

inductive TakesRecord (x : Extractor) (s t : Session) : Prop
  | header : t.position ≤ s.position + 512 → TakesRecord x s t
  | payload (h : Header) : x.NextHeader s h →
    x.limits.check (s.seen + 1) s.summary.bytesExtracted h.size = .ok () →
    t.position ≤ s.position + 512 + (h.size.toNat + (padding h.size).toNat) → TakesRecord x s t

theorem record_takes (x : Extractor) (ho : AllOrdinary root) (s : Session) :
    Ends (x.record (pathTo root)) s (fun _ t => x.TakesRecord s t)
      (fun _ t => x.TakesRecord s t) := by
  rw [record_eq]
  refine ((next_ends x ho s).and ((takes_next (pathTo root)).ends s)).bind ?refused ?begun
  case refused => exact fun _ _ ht => .header ht.2
  case begun =>
    intro o t ⟨hb, ht⟩
    match o with
    | none => exact Ends.pure (.header ht)
    | some (h, target) =>
      have hpay {u : Session} (hu : u.position ≤ t.position +
          (h.size.toNat + (padding h.size).toNat)) : x.TakesRecord s u :=
        .payload h hb.1.header hb.1.checked (by omega)
      refine ((takes_dispatch (pathTo root) target h).ends t).bind ?failed ?dispatched
      case failed => exact fun _ _ hu => hpay hu
      case dispatched => exact fun _ u hu => Ends.modify_bind (Ends.pure (hpay hu))

theorem session_ends {input : Input} {done : Unit → Session → Prop}
    {failed : ExtractError → Session → Prop} (destination : Path) (fs : FileSystem)
    (hn : ∀ e files, failed e { files := files, input := input })
    (hr : ∀ {files root base}, files.Leads root base →
      Ends (x.records (pathTo root)) { files := files, input := input } done failed) :
    Ends (x.session destination) { files := fs, input := input } done failed := by
  apply Ends.get_bind
  apply Ends.require_bind
  case hf => exact fun e _ => hn e fs
  case hd =>
    intro root hroot
    obtain ⟨names, ho, rfl⟩ := Destination.exists_root_eq_pathTo hroot
    refine (Ends.onFiles (Destination.prepare_ends fs ho)).bind ?_ ?_
    · rintro e _ ⟨files, -, rfl⟩
      exact hn e files
    · rintro _ _ ⟨files, ⟨-, base, hl⟩, rfl⟩
      exact hr hl

theorem position_session_le {input : Input} (destination : Path) (fs : FileSystem)
    (hn : input.delivered ≤ n)
    (hr : ∀ {files root base}, files.Leads root base →
      (finalState (x.records (pathTo root)) { files := files, input := input }).position ≤ n) :
    (finalState (x.session destination) { files := fs, input := input }).position ≤ n := by
  apply Ends.finalState (p := fun t => Session.position t ≤ n)
  apply session_ends destination fs
  case hn => exact fun _ _ => hn
  case hr => exact fun hl => Ends.of_finalState (p := fun t => Session.position t ≤ n) (hr hl)

-- The most bytes that an extraction may still take: one header more than there may be records, what
-- is left of the budget, and the padding of the records.
def allowance (x : Extractor) (s : Session) : Nat :=
  512 * (x.limits.files.toNat - s.seen.toNat + 1) +
  (x.limits.totalSize.toNat - s.summary.bytesExtracted.toNat) +
  511 * (x.limits.files.toNat - s.seen.toNat)

structure WithinLimits (x : Extractor) (s : Session) : Prop where
  files     : s.seen ≤ x.limits.files
  totalSize : s.summary.bytesExtracted ≤ x.limits.totalSize

section Allowance

variable (hf : x.limits.files.toNat + 1 < UInt64.size)

include hf

theorem TakesRecord.position_le (h : x.TakesRecord s t) (hw : x.WithinLimits s) :
    t.position ≤ s.position + x.allowance s := by
  cases h with
  | header h =>
    unfold allowance
    omega
  | payload h _ hc ht =>
    have ha := Limits.allows_of_check hc
    have hs := toNat_add_one hf hw.files ▸ UInt64.le_iff_toNat_le.mp ha.files
    have hu := ha.totalSize hw.totalSize
    have hp := Header.toNat_padding_lt h.size
    unfold allowance
    omega

theorem Completes.takes {e : Entry} (h : x.Completes root base e s t) (ht : x.TakesRecord s t)
    (hw : x.WithinLimits s) :
    x.WithinLimits t ∧ t.position + x.allowance t ≤ s.position + x.allowance s := by
  have hs := h.seen ▸ toNat_add_one hf hw.files
  have hle := h.seen ▸ h.allows.files
  have hb := h.bytesExtracted ▸ h.allows.toNat_add hw.totalSize
  refine ⟨⟨hle, h.bytesExtracted ▸ h.allows.add_le hw.totalSize⟩, ?_⟩
  rw [UInt64.le_iff_toNat_le] at hle
  have hu := h.allows.totalSize hw.totalSize
  have hp := Header.toNat_padding_lt e.header.size
  have hpos : t.position ≤
      s.position + 512 + (e.header.size.toNat + (padding e.header.size).toNat) := by
    cases ht with
    | header ht => omega
    | payload h' hn _ ht => rwa [h.header.unique hn]
  unfold allowance
  omega

theorem Passes.takes (h : x.Passes (pathTo root) n s t) (hl : s.files.Leads root base)
    (hw : x.WithinLimits s) :
    x.WithinLimits t ∧ t.position + x.allowance t ≤ s.position + x.allowance s := by
  induction h with
  | none s => exact ⟨hw, Nat.le_refl _⟩
  | next hr _ ih =>
    have ⟨e, hc⟩ := (record_ends x hl).of_ok hr
    have ⟨hw, hle⟩ := hc.takes hf ((record_takes x hl.ordinary _).of_ok hr) hw
    have ⟨hw, hle'⟩ := ih (hc.leads hl) hw
    exact ⟨hw, Nat.le_trans hle' hle⟩

theorem records_takes (hl : s.files.Leads root base) (hw : x.WithinLimits s) :
    Ends (x.records (pathTo root)) s (fun _ t => t.position ≤ s.position + x.allowance s)
      (fun _ t => t.position ≤ s.position + x.allowance s) := by
  have hlast {n : Nat} {t u : Session} (hp : x.Passes (pathTo root) n s t)
      (ht : x.TakesRecord t u) : u.position ≤ s.position + x.allowance s := by
    have ⟨hw, hle⟩ := hp.takes hf hl hw
    exact Nat.le_trans (ht.position_le hf hw) hle
  refine (records_ends x _ s).imp ?_ ?_
  · intro _ t ⟨n, u, hp, hu⟩
    exact hlast hp ((record_takes x hl.ordinary u).of_ok hu)
  · intro e t ⟨n, u, hp, hu⟩
    exact hlast hp ((record_takes x hl.ordinary u).of_error hu)

theorem session_takes (destination : Path) (fs : FileSystem) (input : Input) :
    (finalState (x.session destination) { files := fs, input := input }).position ≤
      input.delivered + x.limits.streamBound := by
  apply position_session_le destination fs (Nat.le_add_right _ _)
  exact fun hl => (records_takes hf hl ⟨UInt64.zero_le, UInt64.zero_le⟩).finalState

theorem taken_le (source : Source) (destination : Path) (fs : FileSystem) :
    x.taken source destination fs ≤ x.limits.streamBound := by
  unfold taken
  split
  · have := session_takes hf destination fs ‹_›
    omega
  · exact Nat.zero_le _

variable {bytes : List UInt8} {ending : Ending} {schedule : Schedule}

-- One more byte, so that a stream does not end before it is found to be too long.
theorem extract_of_prefix (schedule' : Schedule) (destination : Path) (fs : FileSystem)
    (hl : x.limits.streamBound ≤ bytes.length) :
    x.extract (.reader (bytes.take x.limits.streamBound ++ [0]) .finished schedule') destination
        fs =
      x.extract (.reader bytes ending schedule) destination fs := by
  refine x.run_congr (n := x.limits.streamBound) destination fs ?_ ?_
  · refine ⟨⟨rfl, rfl⟩, rfl, ?_, fun hle => ?_⟩
    · simp [hl]
    · rw [List.length_append, List.length_take, Nat.min_eq_left hl] at hle
      exact absurd hle (by simp)
  · have := session_takes hf destination fs
      { remaining := bytes.take x.limits.streamBound ++ [0]
        ending := .finished
        schedule := schedule' }
    rwa [Nat.zero_add] at this

end Allowance

theorem extract_within_streamBound (x : Extractor)
    (hf : x.limits.files.toNat + 1 < UInt64.size) (destination : Path) (fs : FileSystem) :
    (∀ source, x.taken source destination fs ≤ x.limits.streamBound) ∧
    ∀ bytes bytes' ending ending' schedule schedule',
      bytes.take x.limits.streamBound = bytes'.take x.limits.streamBound →
      (bytes.length < x.limits.streamBound → ending = ending') →
      x.extract (.reader bytes ending schedule) destination fs =
        x.extract (.reader bytes' ending' schedule') destination fs := by
  refine ⟨fun source => taken_le hf source destination fs, ?_⟩
  intro bytes bytes' ending ending' schedule schedule' hb he
  have hlen := congrArg List.length hb
  rw [List.length_take, List.length_take] at hlen
  by_cases hl : x.limits.streamBound ≤ bytes.length
  case pos =>
    have hl' : x.limits.streamBound ≤ bytes'.length := by omega
    rw [← extract_of_prefix hf schedule destination fs hl, hb]
    exact extract_of_prefix hf schedule destination fs hl'
  case neg =>
    rw [List.take_of_length_le (by omega), List.take_of_length_le (by omega)] at hb
    rw [hb, he (by omega)]
    have h := Input.AgreesUpTo.of_schedule bytes' ending' schedule schedule'
    exact x.run_congr destination fs (h _) (Nat.le_refl _)

end Extractor

def Limits.single : Limits where
  fileSize := 6
  totalSize := 6
  files := 1

theorem Extractor.extract_single (ending : Ending) (schedule : Schedule) :
    ∃ summary fs', Extractor.extract { limits := .single }
      (.reader (Archive.write [Entry.greeting]) ending schedule) ⟨"out"⟩ (FileSystem.root 0) =
      .ok summary fs' := by
  have hs := List.forall_mem_singleton.mpr Entry.storable_greeting
  have ha : Limits.single.Admits [Entry.greeting.header] :=
    { files := by decide
      fileSize := by decide
      totalSize := by decide
      accepted := List.forall_mem_singleton.mpr ⟨["hello.txt"], rfl⟩
      no_link := by decide
      apart := List.pairwise_singleton _ _ }
  exact extract_write_of_admits (.of_limits .single) hs Destination.root_out isVacant_out short_out
    (List.forall_mem_singleton.mpr (room_out (by decide))) (by decide) ha ending schedule

theorem Archive.le_length_write_greeting (rest : List Entry) :
    1541 ≤ (write (Entry.greeting :: rest)).length := by
  rw [write, List.flatMap_cons, List.length_append, List.length_append,
    Entry.storable_greeting.length_bytes, Entry.storable_greeting.size_written, endMark,
    List.length_replicate]
  have hsize : Entry.greeting.header.size.toNat = 6 := rfl
  omega

-- A stream that breaks off within the end mark is enough, and the header of a second record is
-- refused before it breaks off.
theorem Extractor.single_within_streamBound :
    Limits.single.streamBound = 1541 ∧
    (∃ summary fs', Extractor.extract { limits := .single } (.reader
        ((Archive.write [Entry.greeting]).take 1541) .broken Input.plainSchedule) ⟨"out"⟩
        (FileSystem.root 0) = .ok summary fs' ∧
      Extractor.extract { limits := .single } (.reader (Archive.write [Entry.greeting]) .finished
        Input.plainSchedule) ⟨"out"⟩ (FileSystem.root 0) = .ok summary fs') ∧
    ∃ e fs', Extractor.extract { limits := .single } (.reader
        ((Archive.write [Entry.greeting, Entry.docs]).take 1541) .broken Input.plainSchedule)
        ⟨"out"⟩ (FileSystem.root 0) = .error e fs' ∧
      Extractor.extract { limits := .single } (.reader
        (Archive.write [Entry.greeting, Entry.docs]) .finished Input.plainSchedule) ⟨"out"⟩
        (FileSystem.root 0) = .error e fs' := by
  have hb : Limits.single.streamBound = 1541 := by decide
  have ⟨_, h⟩ := extract_within_streamBound { limits := .single } (by decide) ⟨"out"⟩
    (FileSystem.root 0)
  have hcut (rest : List Entry) := h ((Archive.write (Entry.greeting :: rest)).take 1541)
    (Archive.write (Entry.greeting :: rest)) .broken .finished Input.plainSchedule
    Input.plainSchedule (by rw [hb, List.take_take, Nat.min_self])
    (by
      rw [hb, List.length_take_of_le (Archive.le_length_write_greeting rest)]
      exact fun hl => absurd hl (Nat.lt_irrefl _))
  refine ⟨hb, ?_, ?_⟩
  · have ⟨summary, fs', hx⟩ := extract_single .finished Input.plainSchedule
    exact ⟨summary, fs', (hcut []).trans hx, hx⟩
  · have hdocs := Entry.storable_docs_nested _ List.mem_cons_self
    have hs : ∀ e ∈ [Entry.greeting, Entry.docs], e.Storable :=
      List.forall_mem_cons.mpr ⟨Entry.storable_greeting, List.forall_mem_singleton.mpr hdocs⟩
    have ⟨e, fs', hx⟩ := extract_write_of_length_lt (x := { limits := .single }) (by decide) hs
      (by decide) .finished Input.plainSchedule ⟨"out"⟩ (FileSystem.root 0)
    exact ⟨e, fs', (hcut [Entry.docs]).trans hx, hx⟩

end TarGuard
