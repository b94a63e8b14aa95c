import TarGuard.Proofs.Detection
import TarGuard.Proofs.EndMark
import TarGuard.Proofs.Restoration

namespace TarGuard

open FileSystem

section Magic

variable {b : Block} {bytes : List UInt8} {ending : Ending}

theorem Block.decode_of_magic (hm : Gzip.magic <+: b.bytes) (bound : UInt64) :
    Header.decode b bound = .error .invalidChecksum ∨
      Header.decode b bound = .error .invalidHeader := by
  have ⟨rest, hr⟩ := hm
  cases hd : Header.decode b bound with
  | ok h => exact absurd (congrArg List.head? hr).symm (head?_of_decode hd)
  | error e => exact (Header.decode_error hd).imp (congrArg _) (congrArg _)

theorem Block.not_isZero_of_magic (hm : Gzip.magic <+: b.bytes) : ¬ isZero b.bytes := by
  intro hz
  have hmem : 0x1f ∈ b.bytes := hm.subset List.mem_cons_self
  exact absurd (List.all_eq_true.mp hz _ hmem) (by decide)

namespace Input

-- A stream of these bytes fails at its first record: either there is only a part of it, or it is
-- refused, however long names may be.
inductive FailsAtOnce (s : Input) (bytes : List UInt8) (ending : Ending) : Prop
  | part {t} : bytes.length < 512 →
    readRecord s = .error (if ending = .finished then .invalidHeader else .readFailed) t →
    FailsAtOnce s bytes ending
  | refused {b t} : Block.bytes b <+: bytes → readRecord s = .ok (some b) t →
    (∀ bound, Header.decode b bound = .error .invalidChecksum ∨
      Header.decode b bound = .error .invalidHeader) → FailsAtOnce s bytes ending

variable {s : Input}

theorem Supplies.readRecord_broken (h : s.Supplies bytes .broken) (hlt : bytes.length < 512) :
    ∃ t, Input.readRecord s = .error .readFailed t := by
  have ⟨schedule, hg⟩ := gather_eq h.joints (by decide : 0 < 512) 512
  rw [stopAt, h.remaining, h.ending, if_neg (by omega),
    List.take_of_length_le (Nat.le_of_lt hlt)] at hg
  refine ⟨{ s.after 512 with schedule := schedule }, ?_⟩
  have hb : Input.readBlock s = .error .readFailed { s.after 512 with schedule := schedule } := by
    unfold Input.readBlock
    split <;> cases hg.symm.trans ‹_›
    rfl
  rw [Input.readRecord, bind_of_error hb]

theorem Supplies.failsAtOnce_of_broken (h : s.Supplies bytes .broken) (hlt : bytes.length < 512) :
    s.FailsAtOnce bytes .broken :=
  have ⟨_, ht⟩ := h.readRecord_broken hlt
  .part hlt ht

theorem Supplies.failsAtOnce (h : s.Supplies bytes ending) (hm : Gzip.magic <+: bytes) :
    s.FailsAtOnce bytes ending := by
  by_cases hlt : bytes.length < 512
  case pos =>
    cases ending with
    | broken => exact h.failsAtOnce_of_broken hlt
    | finished =>
      have ⟨_, ht⟩ := h.readRecord_short (fun he => by simp [he, Gzip.magic] at hm) hlt
      exact .part hlt ht
  case neg =>
    have hsize : (bytes.take 512).length = 512 := by
      rw [List.length_take]
      omega
    have hb : Gzip.magic <+: (⟨bytes.take 512, hsize⟩ : Block).bytes :=
      List.prefix_take_iff.mpr ⟨hm, by decide⟩
    rw [← List.take_append_drop 512 bytes] at h
    have ⟨_, hr, _⟩ := h.readRecord (b := ⟨bytes.take 512, hsize⟩) (Block.not_isZero_of_magic hb)
    exact .refused (List.take_prefix _ _) hr (Block.decode_of_magic hb)

theorem FailsAtOnce.headers (h : s.FailsAtOnce bytes ending) (limits : Limits) (count : UInt64) :
    ∃ e, Listing.headers limits count s = .error e := by
  cases h with
  | part _ hr => exact ⟨_, Listing.headers_of_error hr⟩
  | @refused b t _ hr hd =>
    cases hh : (if count ≥ limits.files then Except.error ExtractError.archiveTooLarge
      else Header.decode b limits.componentLength) with
    | error e => exact ⟨e, Listing.headers_of_refused hr (Listing.header_of_error hh)⟩
    | ok h =>
      split at hh
      case isTrue => cases hh
      case isFalse => rcases hd limits.componentLength with hd | hd <;> cases hd.symm.trans hh

theorem FailsAtOnce.record {t : Session} (h : t.input.FailsAtOnce bytes ending) (x : Extractor)
    (root : Path) : ∃ e u, x.record root t = .error e u := by
  by_cases hc : x.cancelAfter.any (· ≤ t.input.delivered)
  case pos => exact ⟨_, _, Extractor.record_of_cancelled hc⟩
  case neg =>
    cases h with
    | part _ hr => exact ⟨_, _, Extractor.record_of_readRecord_error hc hr⟩
    | refused _ hr hd =>
      rcases hd x.limits.componentLength with hd | hd
      all_goals exact ⟨_, _, Extractor.record_of_decode_error hc hr hd⟩

theorem FailsAtOnce.run (h : s.FailsAtOnce bytes ending) (x : Extractor) (destination : Path)
    (fs : FileSystem) : ∃ e fs', x.run s destination fs = .error e fs' := by
  cases hr : Destination.root fs destination with
  | error e => exact ⟨e, fs, Extractor.run_of_root_error hr⟩
  | ok root =>
    cases hp : Destination.prepare root fs with
    | error e fs' =>
      exact ⟨e, _, Extractor.run_of_error hr (bind_of_error (Extraction.onFiles_of_error hp))⟩
    | ok _ fs' =>
      have ⟨e, u, hrec⟩ := FailsAtOnce.record (t := { files := fs', input := s }) h x root
      refine ⟨e, _, Extractor.run_of_error hr (s := u) ?_⟩
      rw [Extractor.runAt, bind_of_ok (Extraction.onFiles_of_ok hp)]
      exact Extractor.records_of_error hrec

theorem read_shows (s : Input) (wanted : Nat) :
    match s.read wanted with
    | (.interrupted, t) => ∃ schedule, t = { s with schedule := schedule }
    | (.broken, _) => s.remaining = [] ∧ s.ending = .broken
    | (.bytes bs, _) => bs <+: s.remaining := by
  unfold read
  by_cases hi : s.delivered ∈ s.schedule.interruptions
  case pos =>
    rw [if_pos hi]
    exact ⟨_, rfl⟩
  case neg =>
    rw [if_neg hi]
    by_cases hb : s.remaining = [] ∧ s.ending = .broken
    case pos =>
      rw [if_pos hb]
      exact hb
    case neg =>
      rw [if_neg hb, List.splitAt_eq]
      exact List.take_prefix _ _

theorem peek_shows (h : ¬ (s.remaining = [] ∧ s.ending = .broken)) (wanted : Nat) :
    ∃ bs schedule, s.peek wanted = .ok (bs, { s with schedule := schedule }) ∧
      bs <+: s.remaining := by
  fun_induction peek s wanted with
  | case1 s t hr ih =>
    have hread := read_shows s wanted
    rw [hr] at hread
    obtain ⟨schedule, rfl⟩ := hread
    exact ih h
  | case2 s t hr =>
    have hread := read_shows s wanted
    rw [hr] at hread
    exact absurd hread h
  | case3 s bytes t hr =>
    have hread := read_shows s wanted
    rw [hr] at hread
    exact ⟨bytes, s.schedule, rfl, hread⟩

theorem detect_of_not_magic (hm : ¬ Gzip.magic <+: s.remaining)
    (h : ¬ (s.remaining = [] ∧ s.ending = .broken)) (buffer : Nat) (decoder : Decoder) :
    ∃ schedule, s.detect buffer decoder = .ok { s with schedule := schedule } := by
  obtain ⟨bs, schedule, hp, hbs⟩ := peek_shows h buffer
  have hnot : ¬ Gzip.magic.isPrefixOf bs := fun hb =>
    hm ((List.isPrefixOf_iff_prefix.mp hb).trans hbs)
  refine ⟨schedule, ?_⟩
  rw [detect, hp]
  simp only [bind, Except.bind, hnot]
  rfl

-- If the stream is read as it is, it can be listed, or extracted.
def IsArchive (s : Input) : Prop :=
  (∃ limits count hs, Listing.headers limits count s = .ok hs) ∨
    ∃ (x : Extractor) (destination : Path) (fs : FileSystem) (summary : Summary)
      (fs' : FileSystem), x.run s destination fs = .ok summary fs'

theorem IsArchive.not_failsAtOnce (h : s.IsArchive) : ¬ s.FailsAtOnce bytes ending := by
  intro hf
  rcases h with ⟨limits, count, hs, h⟩ | ⟨x, destination, fs, summary, fs', h⟩
  · have ⟨_, he⟩ := hf.headers limits count
    cases h.symm.trans he
  · have ⟨_, _, he⟩ := hf.run x destination fs
    cases h.symm.trans he

theorem IsArchive.detect (h : s.IsArchive) (hj : s.joints = []) (buffer : Nat)
    (decoder : Decoder) :
    ∃ schedule, s.detect buffer decoder = .ok { s with schedule := schedule } := by
  apply detect_of_not_magic
  case hm => exact fun hm => h.not_failsAtOnce (Supplies.failsAtOnce ⟨hj, rfl, rfl⟩ hm)
  case h =>
    rintro ⟨hr, he⟩
    have hs : s.Supplies [] .broken := ⟨hj, hr, he⟩
    exact h.not_failsAtOnce (hs.failsAtOnce_of_broken (by decide))

end Input
end Magic

section Write

variable (entries : List Entry) (decoder : Input.Decoder)

theorem Input.detect_write (ending : Ending) (schedule : Schedule) (buffer : Nat) :
    ∃ schedule', Input.detect { remaining := Archive.write entries, ending, schedule } buffer
      decoder = .ok { remaining := Archive.write entries, ending, schedule := schedule' } := by
  refine Input.detect_of_not_magic (Archive.not_magic_write entries) ?_ buffer decoder
  intro ⟨hr, _⟩
  have hend : Archive.endMark = [] := (List.append_eq_nil_iff.mp hr).2
  rw [Archive.endMark, List.replicate_eq_nil_iff] at hend
  cases hend

theorem Input.openFile_write {fs : FileSystem} {archive : Path}
    (h : fs.read archive = .ok (Archive.write entries)) :
    openFile fs archive decoder = .ok (.ofBytes (Archive.write entries) .finished []) := by
  rw [openFile_eq h, if_neg (Archive.not_magic_write entries)]

end Write

-- What begins like a compressed file fails at its first record if it is read as an archive. So an
-- archive that can be read is never taken for a compressed file, and nor is any that was written,
-- or packed under the name of one that is not compressed.
theorem Input.detect_spares_archives :
    (∀ (s : Input) (bytes : List UInt8) (ending : Ending), s.Supplies bytes ending →
      Gzip.magic <+: bytes → s.FailsAtOnce bytes ending) ∧
    (∀ s : Input, s.joints = [] → s.IsArchive → ∀ buffer decoder,
      ∃ schedule, s.detect buffer decoder = .ok { s with schedule := schedule }) ∧
    (∀ entries decoder ending schedule buffer, ∃ schedule',
      Input.detect { remaining := Archive.write entries, ending, schedule } buffer decoder =
        .ok { remaining := Archive.write entries, ending, schedule := schedule' }) ∧
    (∀ entries decoder fs archive, fs.read archive = .ok (Archive.write entries) →
      openFile fs archive decoder = .ok (.ofBytes (Archive.write entries) .finished [])) ∧
    ∀ fs archive files compress n fs', ¬ Packing.isCompressedName archive →
      Packing.pack fs archive files compress = .ok (n, fs') →
      ∃ entries, fs'.read archive = .ok (Archive.write entries) ∧ ∀ decoder,
        openFile fs' archive decoder = .ok (.ofBytes (Archive.write entries) .finished []) := by
  refine ⟨fun _ _ _ hs hm => hs.failsAtOnce hm, fun _ hj h => h.detect hj,
    Input.detect_write, fun entries decoder _ _ h => openFile_write entries decoder h, ?packed⟩
  case packed =>
    intro fs archive files compress n fs' hname hp
    obtain ⟨found, -, -, hw⟩ := Packing.exists_of_pack hp
    rw [Packing.archiveContent, if_neg hname] at hw
    have hread := read_of_write hw
    exact ⟨_, hread, fun decoder => openFile_write _ decoder hread⟩

theorem Input.detect_spares_docs :
    (∃ schedule, Input.detect (stream (Archive.write [Entry.docs, Entry.nested]) plainSchedule)
      bufferSize =
        .ok (stream (Archive.write [Entry.docs, Entry.nested]) schedule)) ∧
    (stream (Gzip.store []) plainSchedule).FailsAtOnce (Gzip.store []) .finished ∧
    ∃ fs fs' entries,
      Packing.pack fs (pathTo ["a.tar"]) [pathTo ["hello.txt"]] = .ok (1, fs') ∧
      openFile fs' (pathTo ["a.tar"]) = .ok (.ofBytes (Archive.write entries) .finished []) := by
  obtain ⟨hfails, harchive, _, _, hpacked⟩ := detect_spares_archives
  refine ⟨?_, hfails _ _ _ ⟨rfl, rfl, rfl⟩ (Gzip.magic_prefix_store []), ?_⟩
  · have ⟨summary, fs', h⟩ := Extractor.extract_docs_nested .finished plainSchedule
    exact harchive (stream (Archive.write [Entry.docs, Entry.nested]) plainSchedule) rfl
      (.inr ⟨{}, ⟨"out"⟩, FileSystem.root 0, summary, fs', h⟩) bufferSize unpack
  · have hfile : (FileSystem.root 0).HasPlaceFor "hello.txt" [] [] := .of_root (by decide) rfl
    have htar : (FileSystem.root 0).HasPlaceFor "a.tar" [] [] := .of_root (by decide) rfl
    obtain ⟨_, _, _, hp⟩ := Packing.exists_pack_greeting rfl hfile htar (by decide)
    have hname : ¬ Packing.isCompressedName (pathTo ["a.tar"]) := by decide
    obtain ⟨entries, _, hopen⟩ := hpacked _ _ _ _ _ _ hname hp
    exact ⟨_, _, entries, hp, hopen unpack⟩

end TarGuard
