import TarGuard.Listing
import TarGuard.Proofs.Contents
import TarGuard.Proofs.OutputFile
import TarGuard.Proofs.Supply

namespace TarGuard

namespace Input

variable {s : Input} {wanted : Nat}

theorem peek_of_plain (hi : s.schedule.interruptions = []) (he : s.ending = .finished) :
    s.peek wanted = .ok (s.remaining.take (s.pieceLength wanted), s) := by
  obtain ⟨t, hr⟩ :
      ∃ t, s.read wanted = (.bytes (s.remaining.take (s.pieceLength wanted)), t) := by
    rw [read, hi, if_neg (by simp), if_neg (by simp [he]), List.splitAt_eq]
    exact ⟨_, rfl⟩
  rw [peek]
  split <;> cases hr.symm.trans ‹_›
  rfl

theorem openFile_eq {fs : FileSystem} {p : Path} {content : List UInt8}
    (h : fs.read p = .ok content) (decoder : Decoder) :
    openFile fs p decoder = .ok (if Gzip.magic <+: content
      then decoder (ofBytes content .finished []) bufferSize
      else ofBytes content .finished []) := by
  unfold FileSystem.read at h
  cases hs : fs.status p with
  | error e =>
    rw [hs] at h
    cases h
  | ok node =>
    rw [hs] at h
    cases node with
    | directory | link => cases h
    | file f =>
      cases h
      have hp : (ofBytes f.content .finished []).peek bufferSize =
          .ok (f.content.take bufferSize, ofBytes f.content .finished []) :=
        peek_of_plain rfl rfl
      have hmagic : Gzip.magic.isPrefixOf (f.content.take bufferSize) ↔
          Gzip.magic <+: f.content := by
        rw [List.isPrefixOf_iff_prefix, List.prefix_take_iff]
        exact and_iff_left (by decide)
      rw [openFile, hs]
      change detect _ bufferSize decoder = _
      rw [detect, hp]
      simp only [bind, Except.bind, hmagic]
      rfl

theorem openFile_of_read {fs : FileSystem} {p : Path} {content : List UInt8}
    (h : fs.read p = .ok content) (hm : content.head? ≠ Gzip.magic.head?) :
    openFile fs p = .ok (ofBytes content .finished []) := by
  rw [openFile_eq h, if_neg]
  intro ⟨rest, hr⟩
  exact hm (hr ▸ rfl)

end Input

namespace Listing

variable {limits : Limits} {ending : Ending} {bytes : List UInt8} {es : List Entry}

section Headers

variable {s t u : Input} {count : UInt64} {b : Block} {h : Header} {e : ExtractError}

theorem headers_of_end (hr : Input.readRecord s = .ok none t) :
    headers limits count s = .ok [] := by
  rw [headers]
  split <;> cases hr.symm.trans ‹_›
  rfl

theorem headers_of_error (hr : Input.readRecord s = .error e t) :
    headers limits count s = .error e := by
  rw [headers]
  split <;> cases hr.symm.trans ‹_›
  rfl

theorem headers_of_refused (hr : Input.readRecord s = .ok (some b) t)
    (hh : header limits count b t = .error e u) : headers limits count s = .error e := by
  rw [headers]
  split <;> cases hr.symm.trans ‹_›
  split <;> cases hh.symm.trans ‹_›
  rfl

theorem headers_of_header (hr : Input.readRecord s = .ok (some b) t)
    (hh : header limits count b t = .ok h u) :
    headers limits count s = (headers limits (count + 1) u).map (h :: ·) := by
  rw [headers]
  split <;> cases hr.symm.trans ‹_›
  split <;> cases hh.symm.trans ‹_›
  rfl

end Headers

theorem header_of_supplies {s : Input} {count : UInt64} {b : Block} {h : Header}
    {payload pad rest : List UInt8} (hd : Header.decode b limits.componentLength = .ok h)
    (hl : payload.length = h.size.toNat) (hp : pad.length = (padding h.size).toNat)
    (hs : s.Supplies (payload ++ pad ++ rest) ending) (hc : count < limits.files) :
    ∃ t, header limits count b s = .ok h t ∧ t.Supplies rest ending := by
  have ⟨t, ht, hr⟩ := hs.skipPayload (Header.paddedSize_of_decode hd) hl hp
  refine ⟨t, ?_, hr⟩
  rw [header, if_neg (UInt64.not_le.mpr hc), hd, require, pure_bind, bind_of_ok ht]
  rfl

theorem toNat_add_one_of_lt {count files : UInt64} (h : count < files) :
    (count + 1).toNat = count.toNat + 1 := by
  have := files.toNat_lt
  rw [UInt64.lt_iff_toNat_lt] at h
  rw [UInt64.toNat_add, UInt64.toNat_one, Nat.mod_eq_of_lt (by omega)]

theorem headers_of_holds {s : Input} {count : UInt64}
    (h : Archive.Holds limits.componentLength ending bytes es) (hs : s.Supplies bytes ending)
    (hc : count.toNat + es.length ≤ limits.files.toNat) :
    headers limits count s = .ok (es.map (·.header)) := by
  induction h generalizing s count with
  | ended he =>
    have ⟨t, hr⟩ := (he ▸ hs).readRecord_nil
    exact headers_of_end hr
  | mark hz =>
    have ⟨t, hr⟩ := hs.readRecord_zero hz
    exact headers_of_end hr
  | @entry b h payload pad rest es hz hd hl hp _ ih =>
    rw [List.length_cons] at hc
    have he : b.bytes ++ payload ++ pad ++ rest = b.bytes ++ (payload ++ pad ++ rest) := by
      simp only [List.append_assoc]
    obtain ⟨t, hr, ht⟩ := (he ▸ hs).readRecord hz
    have hlt : count < limits.files := by
      rw [UInt64.lt_iff_toNat_lt]
      omega
    obtain ⟨u, hu, hrest⟩ := header_of_supplies hd hl hp ht hlt
    have hone := toNat_add_one_of_lt hlt
    rw [headers_of_header hr hu, ih hrest (by omega)]
    rfl

theorem ofFile_write (limits : Limits) (fs : FileSystem) (archive : Path) (entries : List Entry)
    (hr : ∀ e ∈ entries, e.header.Representable ∧ e.payload.length = e.header.size.toNat ∧
      e.header.name.length ≤ limits.componentLength.toNat ∧
      e.header.leading.length ≤ limits.componentLength.toNat)
    (hn : entries.length ≤ limits.files.toNat)
    (hf : fs.read archive = .ok (Archive.write entries)) :
    512 ∣ (Archive.write entries).length ∧
    ofFile fs archive limits =
      .ok (entries.map fun e =>
        { e.header with checksum := .ofNat e.header.encode.checksum }) ∧
    ∀ e ∈ entries, ¬ isZero e.header.encode.bytes := by
  have hs : ∀ e ∈ entries, e.Storable ∧
      e.header.name.length ≤ limits.componentLength.toNat ∧
      e.header.leading.length ≤ limits.componentLength.toNat := by
    intro e he
    have ⟨hh, hp, hb⟩ := hr e he
    exact ⟨⟨hh.name, hh.leading, hh.size, hp⟩, hb⟩
  have hopen := Input.openFile_of_read hf (Archive.head?_write fun e he => (hs e he).1.name)
  have hheaders : headers limits 0 (.ofBytes (Archive.write entries) .finished []) =
      .ok ((entries.map Entry.written).map (·.header)) :=
    headers_of_holds (Archive.holds_write .finished hs) ⟨rfl, rfl, rfl⟩ (by simpa using hn)
  have hwritten : (entries.map Entry.written).map (·.header) = entries.map fun e =>
      { e.header with checksum := .ofNat e.header.encode.checksum } := by
    rw [List.map_map]
    exact List.map_congr_left fun e he => (hr e he).1.written
  refine ⟨Archive.dvd_length_write entries, ?_, fun e _ => e.header.not_isZero_encode⟩
  rw [ofFile, hopen, ← hwritten]
  exact hheaders

end Listing

def Entry.greeting : Entry where
  header := .regular "hello.txt" 0o644 6
  payload := [0x68, 0x65, 0x6c, 0x6c, 0x6f, 0x0a]

theorem Entry.representable_greeting : greeting.header.Representable where
  name := by decide
  leading := by decide
  linkName := ⟨by decide, by decide⟩
  mode := by decide
  size := by decide
  modified := by decide

theorem OutputFile.isFree_tar : IsFree (FileSystem.root 0) ["a.tar"] :=
  isFree_cons (.nil (FileSystem.root 0)) ⟨by decide, by decide, by decide, by decide⟩ (by decide)
    (by rw [FileSystem.Fits, FileSystem.text_pathTo_singleton]; decide) rfl

theorem OutputFile.read_tar (content : List UInt8) :
    (holding (FileSystem.root 0) ["a.tar"] content).read (FileSystem.pathTo ["a.tar"]) =
      .ok content :=
  read_holding (.nil _) ⟨by decide, by decide, by decide, by decide⟩ (by decide)
    (by rw [FileSystem.Fits, FileSystem.text_pathTo_singleton]; decide) isFree_tar content

theorem Listing.ofFile_write_greeting :
    Listing.ofFile
        (OutputFile.holding (FileSystem.root 0) ["a.tar"] (Archive.write [Entry.greeting]))
        (FileSystem.pathTo ["a.tar"]) {} =
      .ok [{ Entry.greeting.header with
        checksum := .ofNat Entry.greeting.header.encode.checksum }] := by
  have hr := OutputFile.read_tar (Archive.write [Entry.greeting])
  refine (Listing.ofFile_write {} _ _ [Entry.greeting] ?_ (by decide) hr).2.1
  intro e he
  cases List.mem_singleton.mp he
  exact ⟨Entry.representable_greeting, rfl, by decide, by decide⟩

end TarGuard
