import TarGuard.Proofs.Completeness
import TarGuard.Proofs.Decoded

namespace TarGuard

open FileSystem EntryPath

structure Summary.Describes (summary : Summary) (l : Limits) (hs : List Header) : Prop where
  filesWritten       : hs.countP (·.kind = .regular) = summary.filesWritten.toNat
  directoriesCreated : hs.countP (·.kind = .directory) = summary.directoriesCreated.toNat
  entriesSkipped     : hs.countP (·.kind matches .other _) = summary.entriesSkipped.toNat
  bytesExtracted     : (hs.map (·.size.toNat)).sum = summary.bytesExtracted.toNat
  no_link            : ∀ h ∈ hs, h.kind ≠ .hardLink ∧ h.kind ≠ .symbolicLink
  accepted           : ∀ h ∈ hs, ∃ names, components l h.fullPath = .ok names

theorem Destination.eq_of_root_error {fs : FileSystem} {destination : Path} {e : ExtractError}
    (h : Destination.root fs destination = .error e) : e = .directoryFailed := by
  unfold Destination.root at h
  split at h <;> cases h
  rfl

namespace Listing

variable {limits : Limits}

theorem holds_of_headers {s : Input} {count : UInt64} {hs : List Header}
    (hj : s.joints = []) (h : headers limits count s = .ok hs) :
    ∃ es, Archive.Holds limits.componentLength s.ending s.remaining es ∧
      es.map (·.header) = hs := by
  fun_induction headers limits count s generalizing hs with
  | case1 => cases h
  | case2 count s t hr =>
    cases h
    have hend := (Input.readRecord_ends s).of_ok hr
    exact ⟨[], (hend hj).holds _, rfl⟩
  | case3 => cases h
  | case4 count s b t hr a u hh ih =>
    obtain ⟨hz, hblock⟩ := (Input.readRecord_ends s).of_ok hr
    obtain ⟨hd, payload, pad, hb, hp, hi⟩ := (header_ends limits count b t).of_ok hh
    have hu := hi.joints.trans (hblock.joints.trans hj)
    cases hm : headers limits (count + 1) u with
    | error e =>
      rw [hm] at h
      cases h
    | ok hs' =>
      rw [hm] at h
      cases h
      obtain ⟨es, hes, rfl⟩ := ih hu hm
      refine ⟨⟨a, payload⟩ :: es, ?_, rfl⟩
      rw [hblock.remaining hj, hi.remaining (hblock.joints.trans hj), ← hblock.ending, ← hi.ending,
        ← List.append_assoc, ← List.append_assoc]
      exact .entry hz hd hb hp hes

end Listing

section Tar

def FileSystem.tar (entries : List Entry) : FileSystem :=
  OutputFile.holding (FileSystem.root 0) ["a.tar"] (Archive.write entries)

variable {entries : List Entry} (hs : ∀ e ∈ entries, e.Storable)

include hs

theorem Input.openFile_tar :
    Input.openFile (FileSystem.tar entries) (pathTo ["a.tar"]) =
      .ok (.ofBytes (Archive.write entries) .finished []) :=
  Input.openFile_of_read (OutputFile.read_tar _) (Archive.head?_write fun e he => (hs e he).name)

theorem Listing.ofFile_tar {l : Limits}
    (hb : ∀ e ∈ entries, e.header.name.length ≤ l.componentLength.toNat ∧
      e.header.leading.length ≤ l.componentLength.toNat)
    (hn : entries.length ≤ l.files.toNat) :
    ∃ hs, Listing.ofFile (FileSystem.tar entries) (pathTo ["a.tar"]) l = .ok hs := by
  rw [Listing.ofFile, Input.openFile_tar hs]
  have hh := Archive.holds_write .finished fun e he => ⟨hs e he, hb e he⟩
  exact ⟨_, headers_of_holds hh ⟨rfl, rfl, rfl⟩ (by simpa using hn)⟩

end Tar

namespace Extractor

variable {x : Extractor} {s : Session} {names : List String} {base : Location} {es : List Entry}
  {bytes : List UInt8} {ending : Ending} {archive destination : Path} {fs : FileSystem}

theorem records_fed (hx : x.cancelAfter = none) (hl : s.files.Leads names base)
    (hs : s.input.Supplies bytes ending)
    (hh : Archive.Holds x.limits.componentLength ending bytes es) :
    Ends (x.records (pathTo names)) s (fun _ _ => True) (fun e _ => e ∉ ExtractError.faults) := by
  have hnil {bytes : List UInt8} {s : Session} (hl : s.files.Leads names base)
      (hs : s.input.Supplies bytes ending)
      (hh : Archive.Holds x.limits.componentLength ending bytes []) :
      Ends (x.records (pathTo names)) s (fun _ _ => True)
        (fun e _ => e ∉ ExtractError.faults) :=
    have ⟨_, ht, _⟩ := records_ended hx hl hs hh
    Ends.of_eq ht trivial
  induction hh generalizing s with
  | ended he => exact hnil hl hs (.ended he)
  | mark hz => exact hnil hl hs (.mark hz)
  | @entry b h payload pad rest es hz hd hb hp hh ih =>
    rw [List.append_assoc, List.append_assoc] at hs
    have hbytes : payload ++ (pad ++ rest) = payload ++ pad ++ rest := by rw [List.append_assoc]
    have hfed := record_fed hx hs hz hd hl hbytes hb hp
    cases ht : x.record (pathTo names) s with
    | error e t => exact Ends.of_eq_error (records_of_error ht) (hfed.of_error ht)
    | ok more t =>
      cases hfed.of_ok ht
      have ⟨e, he⟩ := (record_ends x hl).of_ok ht
      have ⟨_, hrest⟩ := he.eq_of_supplies hs hd hbytes hb hp
      rw [Ends, records_of_next ht, ← Ends]
      exact ih (he.leads hl) hrest

namespace Completed

variable {t : Session} (hc : x.Completed names base es s t)

include hc

theorem length_le (hn : s.seen = 0) (hj : s.input.joints = [])
    (hsmall : x.limits.files.toNat + 1 < UInt64.size ∨
      s.input.remaining.length < 512 * UInt64.size) :
    es.length ≤ x.limits.files.toNat := by
  by_cases hf : x.limits.files.toNat + 1 < UInt64.size
  case pos =>
    have ⟨hle, heq⟩ := hc.seen_of_start hf hn
    exact heq ▸ UInt64.le_iff_toNat_le.mp hle
  case neg =>
    have ⟨_, front, hr, hspans⟩ := hc.spans hj
    have hle := hspans.length_le
    have hlt := hsmall.resolve_left hf
    rw [hr, List.length_append] at hlt
    omega

theorem describes (hn : s.seen = 0) (hs : s.summary = {}) (hlen : es.length ≤ x.limits.files.toNat) :
    t.summary.Describes x.limits (es.map (·.header)) := by
  have h := hc.hasEffect hn hs
  have hsuits := hc.suits hn hs
  have hcount (p : Entry → Bool) : (UInt64.ofNat (es.countP p)).toNat = es.countP p := by
    have := x.limits.files.toNat_lt
    have := es.countP_le_length (p := p)
    rw [UInt64.toNat_ofNat', Nat.mod_eq_of_lt (by omega)]
  constructor
  case filesWritten => rw [h.filesWritten, hcount, List.countP_map]; rfl
  case directoriesCreated => rw [h.directoriesCreated, hcount, List.countP_map]; rfl
  case entriesSkipped =>
    rw [h.entriesSkipped, hcount, List.countP_map]
    refine List.countP_congr fun e he => ?_
    have hlink := h.no_link e he
    cases hk : e.header.kind <;> simp_all
  case bytesExtracted => rw [h.bytesExtracted, List.map_map]; rfl
  case no_link => exact List.forall_mem_map.mpr h.no_link
  case accepted => exact hsuits.accepted

end Completed

-- What is extracted could be listed, and the summary says what the list says, if the records are
-- not so many that the count of them overflows. If an archive can be listed, no fault of it makes
-- an extraction fail.
theorem extract_consistent (x : Extractor) (archive destination : Path) (fs : FileSystem) :
    Ends (x.extract (.file archive) destination) fs
      (fun summary _ => ∃ input, Input.openFile fs archive = .ok input ∧
        (x.limits.files.toNat + 1 < UInt64.size ∨
            input.remaining.length < 512 * UInt64.size →
          ∃ hs, Listing.ofFile fs archive x.limits = .ok hs ∧ summary.Describes x.limits hs))
      (fun e _ => x.cancelAfter = none → (∃ hs, Listing.ofFile fs archive x.limits = .ok hs) →
        e ∉ ExtractError.faults) := by
  have hlisted {input : Input} (ho : Input.openFile fs archive = .ok input) :
      Listing.ofFile fs archive x.limits = Listing.headers x.limits 0 input := by
    rw [Listing.ofFile, ho]
    rfl
  apply Ends.intro
  case hd =>
    intro summary fs' h
    obtain ⟨names, base, s, es, t, hb, hh, hc, hsum, _⟩ := extract_completed h
    have hj := Source.joints_of_open hb.opens
    refine ⟨s.input, hb.opens, fun hsmall => ?_⟩
    have hlen := hc.length_le hb.seen hj hsmall
    have hheaders : Listing.headers x.limits 0 s.input = .ok (es.map (·.header)) :=
      Listing.headers_of_holds hh ⟨hj, rfl, rfl⟩ (by simpa using hlen)
    refine ⟨es.map (·.header), (hlisted hb.opens).trans hheaders, ?_⟩
    exact hsum ▸ hc.describes hb.seen hb.summary hlen
  case hf =>
    rintro e fs' h hx ⟨hs, hlist⟩
    -- What fails before the first record is no fault of the archive.
    have hfails := (extract_ends x (.file archive) destination fs).of_error h
    cases hfails with
    | opening ho =>
      rw [Listing.ofFile, show Input.openFile fs archive = .error e from ho] at hlist
      cases hlist
    | root _ hr =>
      rw [Destination.eq_of_root_error hr]
      decide
    | preparing _ ho _ hp =>
      obtain ⟨_, he⟩ := (Destination.prepare_ends fs ho).of_error hp
      rw [he]
      decide
    | record hb hp hu =>
      have hj := Source.joints_of_open hb.opens
      obtain ⟨es, hh, _⟩ := Listing.holds_of_headers hj ((hlisted hb.opens).symm.trans hlist)
      have hfed := records_fed hx hb.leads ⟨hj, rfl, rfl⟩ hh
      exact hfed.of_error ((records_of_passes hp).trans (records_of_error hu))

end Extractor

theorem Extractor.exists_extract_tar (destination : Path)
    (hroot : Destination.root (FileSystem.tar [Entry.docs, Entry.nested]) destination =
      .ok (pathTo ["out"])) :
    ∃ summary fs', Extractor.extract {} (.file (pathTo ["a.tar"])) destination
      (FileSystem.tar [Entry.docs, Entry.nested]) = .ok summary fs' := by
  have hs := Entry.storable_docs_nested
  have hsize : ∀ e ∈ [Entry.docs, Entry.nested], e.header.fullPath.utf8ByteSize ≤ 100 := by
    decide
  have g : Grows (fun _ _ => True) (FileSystem.root 0)
      (FileSystem.tar [Entry.docs, Entry.nested]) :=
    OutputFile.isFree_tar.grows_holding trivial
  have hout : (FileSystem.tar [Entry.docs, Entry.nested]).node? ["out"] = none :=
    node?_put_of_ne (by decide)
  have hv : (FileSystem.tar [Entry.docs, Entry.nested]).IsVacant ["out"] ["out"] :=
    .inl (.here ((Leads.nil _).grows g) (by decide) hout)
  refine extract_of_admits (.of_limits {}) (Input.openFile_tar hs)
    (Archive.holds_write .finished fun e he => ⟨hs e he, ?_⟩)
    ((Limits.admits_written_iff hs).mpr Limits.admits_docs_nested) hroot hv short_out
    (List.forall_mem_map.mpr fun e he => (hs e he).fitsBelow (room_out (hsize e he)))
  revert e
  decide

-- A file in a directory is extracted as it is listed. A file below a file is only listed, and it is
-- not for a fault of the archive that it is not extracted.
theorem Extractor.extract_tar_consistent :
    (∃ summary fs' hs, Extractor.extract {} (.file (pathTo ["a.tar"])) ⟨"out"⟩
        (FileSystem.tar [Entry.docs, Entry.nested]) = .ok summary fs' ∧
      Listing.ofFile (FileSystem.tar [Entry.docs, Entry.nested]) (pathTo ["a.tar"]) {} = .ok hs ∧
      summary.Describes {} hs) ∧
    ∀ e fs', Extractor.extract {} (.file (pathTo ["a.tar"])) ⟨"out"⟩
        (FileSystem.tar [Entry.greeting, Entry.underGreeting]) = .error e fs' →
      e ∉ ExtractError.faults := by
  constructor
  · have ⟨summary, fs', h⟩ := exists_extract_tar ⟨"out"⟩ rfl
    have ⟨_, ho, hlist⟩ := (extract_consistent {} (pathTo ["a.tar"]) ⟨"out"⟩ _).of_ok h
    have ⟨hs, hlist, hd⟩ := hlist (.inl (by decide))
    exact ⟨summary, fs', hs, h, hlist, hd⟩
  · intro e fs' h
    have hlist := Listing.ofFile_tar (l := {}) Entry.storable_greeting_under (by decide) (by decide)
    exact (extract_consistent {} (pathTo ["a.tar"]) ⟨"out"⟩ _).of_error h rfl hlist

end TarGuard
