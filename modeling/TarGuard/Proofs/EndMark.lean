import TarGuard.Proofs.Metadata

namespace TarGuard

open FileSystem Extraction

namespace Block

variable {b : Block} {bound : UInt64} {h : Header}

theorem head?_of_decode (hd : Header.decode b bound = .ok h) :
    b.bytes.head? ≠ Gzip.magic.head? := by
  intro hh
  obtain ⟨rest, hr⟩ := List.head?_eq_some_iff.mp hh
  have hname : FieldText.read? (b.field 0 100) bound = none := by
    rw [field, hr, FieldText.read?, if_neg]
    simp [FieldText.content, FieldText.isPrintable]
  rw [Header.decode, if_pos (Header.decodedFrom_of_decode hd).guarded, hname] at hd
  cases hd

end Block

namespace Archive

-- Records that come one after another, and then a zero block.
def Closed (bytes : List UInt8) : Prop :=
  ∃ bound es front b, Spans bound front es ∧ isZero (Block.bytes b) ∧ bytes = front ++ b.bytes

variable {bound : UInt64} {entries : List Entry}

theorem Closed.head? {bytes : List UInt8} (h : Closed bytes) (tail : List UInt8) :
    (bytes ++ tail).head? ≠ Gzip.magic.head? := by
  have hblock {b : Block} (rest : List UInt8) : (b.bytes ++ rest).head? = b.bytes.head? := by
    apply List.head?_append_of_ne_nil
    exact fun he => by simpa [he] using b.size_eq
  obtain ⟨bound, es, front, b, hs, hz, rfl⟩ := h
  cases hs with
  | nil =>
    rw [List.nil_append, hblock]
    intro hh
    have hm := List.all_eq_true.mp hz 0x1f (List.mem_of_mem_head? hh)
    exact absurd hm (by decide)
  | cons _ hd =>
    simp only [List.append_assoc, hblock]
    exact Block.head?_of_decode hd

end Archive

namespace Extractor

variable {x : Extractor} {s t : Session} {names : List String} {base : Location} {b : Block}
  {bound : UInt64} {es : List Entry} {front tail : List UInt8} {ending : Ending}

theorem not_nextHeader_of_zero {h : Header} (hs : s.input.Supplies (b.bytes ++ tail) ending)
    (hz : isZero b.bytes) : ¬ x.NextHeader s h := by
  intro ⟨_, _, hr, _⟩
  have ⟨_, hn⟩ := hs.readRecord_zero hz
  cases hr.symm.trans hn

theorem position_records_of_record {root : Path} {n : Nat}
    (hr : (finalState (x.record root) s).position ≤ n)
    (hnext : ∀ t, x.record root s = .ok true t →
      (finalState (x.records root) t).position ≤ n) :
    (finalState (x.records root) s).position ≤ n := by
  cases h : x.record root s with
  | error e t =>
    rw [finalState_of_error h] at hr
    rwa [finalState_of_error (records_of_error h)]
  | ok more t =>
    cases more with
    | false =>
      rw [finalState_of_ok h] at hr
      rwa [finalState_of_ok (records_of_end h)]
    | true =>
      rw [finalState, records_of_next h, ← finalState]
      exact hnext t h

theorem position_records_le (hf : Archive.Spans bound front es) (hz : isZero b.bytes)
    (hl : s.files.Leads names base) (hs : s.input.Supplies (front ++ (b.bytes ++ tail)) ending) :
    (finalState (x.records (pathTo names)) s).position ≤ s.position + (front.length + 512) := by
  -- On the records. A run that fails at one of them takes no more than belongs to it.
  induction hf generalizing s with
  | nil =>
    have hno {h : Header} : ¬ x.NextHeader s h := not_nextHeader_of_zero hs hz
    apply position_records_of_record
    case hr =>
      cases (record_takes x hl.ordinary s).finalState with
      | header hle => rwa [List.length_nil, Nat.zero_add]
      | payload h hh => exact absurd hh hno
    case hnext =>
      intro t ht
      have ⟨_, hc⟩ := (record_ends x hl).of_ok ht
      exact absurd hc.header hno
  | @cons c h payload pad front es _ hd hpayload hpad _ ih =>
    have hc := (Header.decodedFrom_of_decode hd).guarded
    rw [Block.size_of_decode hd] at hpayload hpad
    have hbytes : c.bytes ++ payload ++ pad ++ front ++ (b.bytes ++ tail) =
        c.bytes ++ (payload ++ pad ++ (front ++ (b.bytes ++ tail))) := by simp
    rw [hbytes] at hs
    have hle := position_record_le (x := x) hc hl.ordinary hs
    simp only [List.length_append, c.size_eq]
    apply position_records_of_record
    case hr => omega
    case hnext =>
      intro t ht
      have ⟨hlt, hst⟩ := supplies_of_record hc hl hs hpayload hpad ht
      rw [finalState_of_ok ht] at hle
      exact Nat.le_trans (ih hlt hst) (by omega)

end Extractor

namespace Archive.Closed

variable {x : Extractor} {bytes tail tail' : List UInt8} {ending ending' : Ending}
  {schedule schedule' : Schedule}

theorem position_session_le (h : Closed bytes) (destination : Path) (fs : FileSystem) :
    (finalState (x.session destination)
      { files := fs
        input := { remaining := bytes ++ tail, ending, schedule } }).position ≤ bytes.length := by
  obtain ⟨bound, es, front, b, hf, hz, rfl⟩ := h
  apply Extractor.position_session_le destination fs (Nat.zero_le _)
  intro files names base hl
  rw [List.append_assoc, List.length_append, b.size_eq, ← Nat.zero_add (front.length + 512)]
  exact Extractor.position_records_le hf hz hl ⟨rfl, rfl, rfl⟩

-- One more byte, so that the stream does not end where the archive does.
theorem extract_eq (h : Closed bytes) (x : Extractor) (destination : Path) (fs : FileSystem) :
    x.extract (.reader (bytes ++ [0]) .finished Input.plainSchedule) destination fs =
      x.extract (.reader (bytes ++ tail) ending schedule) destination fs := by
  refine x.run_congr (n := bytes.length) destination fs ?_ (h.position_session_le destination fs)
  refine ⟨⟨rfl, rfl⟩, rfl, ?_, fun hle => ?_⟩
  · simp
  · rw [List.length_append] at hle
    exact absurd hle (by simp)

end Archive.Closed

namespace Listing

variable {limits : Limits} {count : UInt64} {s t : Input} {b : Block} {bound : UInt64}
  {es : List Entry} {front tail tail' : List UInt8} {ending ending' : Ending}

theorem header_of_error {e : ExtractError}
    (h : (if count ≥ limits.files then .error .archiveTooLarge
      else Header.decode b limits.componentLength) = .error e) :
    header limits count b s = .error e s := by
  rw [header, h]
  rfl

theorem headers_closed (hf : Archive.Spans bound front es) (hz : isZero b.bytes)
    (hs : s.Supplies (front ++ (b.bytes ++ tail)) ending)
    (ht : t.Supplies (front ++ (b.bytes ++ tail')) ending') :
    headers limits count s = headers limits count t := by
  induction hf generalizing count s t with
  | nil =>
    have ⟨_, hu⟩ := hs.readRecord_zero hz
    have ⟨_, hv⟩ := ht.readRecord_zero hz
    rw [headers_of_end hu, headers_of_end hv]
  | @cons c h payload pad front es hc hd hpayload hpad _ ih =>
    rw [Block.size_of_decode hd] at hpayload hpad
    have hbytes (rest : List UInt8) : c.bytes ++ payload ++ pad ++ front ++ rest =
        c.bytes ++ (payload ++ pad ++ (front ++ rest)) := by simp
    rw [hbytes] at hs ht
    have ⟨u, hu, hsu⟩ := hs.readRecord hc
    have ⟨v, hv, htv⟩ := ht.readRecord hc
    -- The header is looked at with another bound, so that it may be refused.
    cases hh : (if count ≥ limits.files then Except.error ExtractError.archiveTooLarge
      else Header.decode c limits.componentLength) with
    | error e =>
      rw [headers_of_refused hu (header_of_error hh), headers_of_refused hv (header_of_error hh)]
    | ok h' =>
      split at hh
      case isTrue => cases hh
      case isFalse hcount =>
        rw [← Block.size_of_decode hh] at hpayload hpad
        have hlt := UInt64.not_le.mp hcount
        have ⟨_, hu', hs'⟩ := header_of_supplies hh hpayload hpad hsu hlt
        have ⟨_, hv', ht'⟩ := header_of_supplies hh hpayload hpad htv hlt
        rw [headers_of_header hu hu', headers_of_header hv hv', ih hs' ht']

end Listing

-- Nothing behind the end of an archive is looked at, nor is it read. So it makes no difference what
-- stands there, or whether it can be read.
theorem Extractor.extract_closed (x : Extractor) {bytes : List UInt8} (h : Archive.Closed bytes)
    (tail tail' : List UInt8) :
    (∀ ending ending' schedule schedule' destination fs,
      x.extract (.reader (bytes ++ tail) ending schedule) destination fs =
        x.extract (.reader (bytes ++ tail') ending' schedule') destination fs) ∧
    (∀ ending schedule destination fs,
      x.taken (.reader (bytes ++ tail) ending schedule) destination fs ≤ bytes.length) ∧
    ∀ (limits : Limits) (fs fs' : FileSystem) (archive archive' : Path),
      fs.read archive = .ok (bytes ++ tail) → fs'.read archive' = .ok (bytes ++ tail') →
      Listing.ofFile fs archive limits = Listing.ofFile fs' archive' limits := by
  refine ⟨?extract, ?taken, ?list⟩
  case extract =>
    intro ending ending' schedule schedule' destination fs
    rw [← h.extract_eq x destination fs, h.extract_eq x destination fs]
  case taken =>
    intro ending schedule destination fs
    exact h.position_session_le destination fs
  case list =>
    intro limits fs fs' archive archive' hread hread'
    have hopen := Input.openFile_of_read hread (h.head? tail)
    have hopen' := Input.openFile_of_read hread' (h.head? tail')
    rw [Listing.ofFile, Listing.ofFile, hopen, hopen']
    obtain ⟨bound, es, front, b, hf, hz, rfl⟩ := h
    rw [List.append_assoc, List.append_assoc]
    exact Listing.headers_closed hf hz ⟨rfl, rfl, rfl⟩ ⟨rfl, rfl, rfl⟩

theorem Archive.closed_write {entries : List Entry} (hs : ∀ e ∈ entries, e.Storable) :
    Closed (entries.flatMap Entry.bytes ++ zeroBlock.bytes) := by
  -- No part of a path is longer than the longest field for one.
  have hb (e : Entry) (he : e ∈ entries) : e.Storable ∧
      e.header.name.length ≤ (155 : UInt64).toNat ∧
      e.header.leading.length ≤ (155 : UInt64).toNat := by
    have hs := hs e he
    exact ⟨hs, Nat.le_trans hs.name.length (by decide), hs.leading.length⟩
  exact ⟨155, _, _, zeroBlock, spans_flatMap hb, isZero_zeroBlock, rfl⟩

theorem Extractor.extract_closed_docs :
    let bytes := [Entry.docs, Entry.nested].flatMap Entry.bytes ++ Archive.zeroBlock.bytes
    let listed (content : List UInt8) := Listing.ofFile
      (OutputFile.holding (FileSystem.root 0) ["a.tar"] content) (pathTo ["a.tar"]) {}
    Extractor.extract {} (.reader (bytes ++ [0x1f, 0x8b]) .broken Input.plainSchedule) ⟨"out"⟩
        (FileSystem.root 0) =
      Extractor.extract {} (.reader (bytes ++ []) .finished ⟨1, [3], by decide⟩) ⟨"out"⟩
        (FileSystem.root 0) ∧
    listed (bytes ++ [0x1f, 0x8b]) = listed (bytes ++ []) := by
  intro bytes listed
  have hclosed : Archive.Closed bytes := Archive.closed_write Entry.storable_docs_nested
  have ⟨hextract, _, hlist⟩ := extract_closed {} hclosed [0x1f, 0x8b] []
  exact ⟨hextract _ _ _ _ _ _, hlist {} _ _ _ _ (OutputFile.read_tar _) (OutputFile.read_tar _)⟩

end TarGuard
