import TarGuard.Proofs.Concatenation
import TarGuard.Proofs.Consistency
import TarGuard.Proofs.Decoding
import TarGuard.Proofs.EndMark
import TarGuard.Proofs.Truncation

namespace TarGuard

open FileSystem

namespace Block

variable {b c : Block} {bytes : List UInt8} {i : Nat} {byte old : UInt8}

theorem sum_cons (x : UInt8) (xs : List UInt8) : sum (x :: xs) = x.toNat + sum xs := rfl

theorem sum_append (xs ys : List UInt8) : sum (xs ++ ys) = sum xs + sum ys := by
  induction xs with
  | nil => exact (Nat.zero_add _).symm
  | cons x xs ih => rw [List.cons_append, sum_cons, sum_cons, ih, Nat.add_assoc]

theorem sum_set (h : bytes[i]? = some old) :
    sum (bytes.set i byte) + old.toNat = sum bytes + byte.toNat := by
  induction bytes generalizing i with
  | nil => cases h
  | cons x xs ih =>
    cases i with
    | zero =>
      cases h
      rw [List.set_cons_zero, sum_cons, sum_cons]
      omega
    | succ i =>
      have := ih h
      rw [List.set_cons_succ, sum_cons, sum_cons]
      omega

theorem sum_set_ne (hi : i < bytes.length) (hb : bytes[i]? ≠ some byte) :
    sum (bytes.set i byte) ≠ sum bytes := by
  rw [List.getElem?_eq_getElem hi, ne_eq, Option.some_inj, ← UInt8.toNat_inj] at hb
  have hset : sum (bytes.set i byte) + bytes[i].toNat = sum bytes + byte.toNat :=
    sum_set (List.getElem?_eq_getElem hi)
  omega

def summed (b : Block) : List UInt8 :=
  b.bytes.take 148 ++ b.bytes.drop 156

theorem checksum_eq (b : Block) : b.checksum = sum b.summed + 8 * 0x20 := by
  rw [checksum, summed, sum_append]
  omega

theorem hasChecksum_iff_of_checksumField (h : b.HasChecksum)
    (hf : c.checksumField = b.checksumField) : c.HasChecksum ↔ sum c.summed = sum b.summed := by
  have hb : b.checksum = (Octal.parse c.checksumField).toNat := hf ▸ h
  rw [HasChecksum, ← hb, checksum_eq, checksum_eq]
  omega

def set (b : Block) (i : Nat) (byte : UInt8) : Block where
  bytes := b.bytes.set i byte
  size_eq := by rw [List.length_set, b.size_eq]

theorem checksumField_set (hi : i < 148 ∨ 156 ≤ i) :
    (b.set i byte).checksumField = b.checksumField := by
  rw [checksumField, checksumField, field, field, set, List.drop_set]
  split
  case isTrue => rfl
  case isFalse => rw [List.take_set_of_le (by omega)]

theorem summed_set_of_lt (hi : i < 148) : (b.set i byte).summed = b.summed.set i byte := by
  have hl : i < (b.bytes.take 148).length := by
    rw [List.length_take, b.size_eq]
    omega
  rw [summed, summed, set, List.take_set, List.drop_set_of_lt (by omega),
    List.set_append_left i byte hl]

theorem summed_set_of_le (hi : 156 ≤ i) : (b.set i byte).summed = b.summed.set (i - 8) byte := by
  have hl : (b.bytes.take 148).length = 148 := by
    rw [List.length_take, b.size_eq]
    rfl
  have hsub : i - 8 - 148 = i - 156 := by omega
  rw [summed, summed, set, List.take_set_of_le (by omega), List.drop_set, if_neg (by omega),
    List.set_append_right _ _ (by omega), hl, hsub]

theorem length_summed (b : Block) : b.summed.length = 504 := by
  rw [summed, List.length_append, List.length_take, List.length_drop, b.size_eq]
  rfl

theorem HasChecksum.not_set (h : b.HasChecksum) (hi : i < 148 ∨ 156 ≤ i ∧ i < 512)
    (hb : b.bytes[i]? ≠ some byte) : ¬ (b.set i byte).HasChecksum := by
  rw [hasChecksum_iff_of_checksumField h (checksumField_set (hi.imp_right And.left))]
  cases hi with
  | inl hi =>
    rw [summed_set_of_lt hi]
    refine sum_set_ne (by rw [length_summed]; omega) ?_
    rwa [summed, List.getElem?_append_left (by simp [b.size_eq]; omega),
      List.getElem?_take_of_lt hi]
  | inr hi =>
    rw [summed_set_of_le hi.1]
    refine sum_set_ne (by rw [length_summed]; omega) ?_
    rw [summed, List.getElem?_append_right (by simp [b.size_eq]; omega), List.getElem?_drop]
    simp only [List.length_take, b.size_eq]
    rwa [show 156 + (i - 8 - min 148 512) = i by omega]

end Block

theorem FieldText.Holds.not_mem_magic {width : Nat} {s : String} (h : Holds width s) {b : UInt8}
    (hb : b ∈ write width s) : b ∉ Gzip.magic := by
  have hprintable : isPrintable b ∨ b = 0 := by
    rw [write, fill, List.mem_append] at hb
    refine hb.imp (fun hb => ?_) List.eq_of_mem_replicate
    have hm := List.mem_of_mem_take hb
    rw [encode_of_isPlain h.plain] at hm
    obtain ⟨c, hc, rfl⟩ := List.mem_map.mp hm
    exact isPrintable_byte (h.plain c hc)
  intro hm
  rw [Gzip.magic, List.mem_pair] at hm
  rcases hm with rfl | rfl
  all_goals exact absurd hprintable (by decide)

namespace Archive

variable {entries : List Entry} {e : Entry} {k i n : Nat} {byte : UInt8}

theorem getElem_write_not_mem_magic (hs : ∀ e ∈ entries, e.Storable) (hn : n < 100) :
    ∃ b, (write entries)[n]? = some b ∧ b ∉ Gzip.magic := by
  cases entries with
  | nil =>
    refine ⟨0, ?_, by decide⟩
    rw [write, List.flatMap_nil, List.nil_append, endMark, List.getElem?_replicate,
      if_pos (by omega)]
  | cons e es =>
    have hf : e.header.encode.field 0 100 = FieldText.write 100 e.header.name :=
      e.header.field_encode (i := 0) rfl rfl rfl
    have hl : n < (FieldText.write 100 e.header.name).length := by
      rwa [FieldText.length_write]
    refine ⟨_, ?_, (hs e List.mem_cons_self).name.not_mem_magic (List.getElem_mem hl)⟩
    rw [← List.getElem?_eq_getElem hl, ← hf, Block.field, List.drop_zero,
      List.getElem?_take_of_lt hn, write, List.flatMap_cons, Entry.bytes]
    simp only [List.append_assoc]
    rw [List.getElem?_append_left (by rw [e.header.encode.size_eq]; omega)]

theorem not_prefix_set_write (hs : ∀ e ∈ entries, e.Storable) :
    ¬ Gzip.magic <+: (write entries).set n byte := by
  intro hp
  rw [List.prefix_iff_getElem?] at hp
  -- The byte was put in one place, so the other is as it was.
  have ⟨m, hm, hne⟩ : ∃ m < 2, n ≠ m := by
    by_cases hn : n = 0
    · exact ⟨1, by decide, by omega⟩
    · exact ⟨0, by decide, hn⟩
  have ⟨b, hb, hmagic⟩ := getElem_write_not_mem_magic hs (n := m) (by omega)
  have hmb := hp m hm
  rw [List.getElem?_set_ne hne, hb, Option.some_inj] at hmb
  exact hmagic (hmb ▸ List.getElem_mem hm)

theorem exists_write_eq (hk : entries[k]? = some e) :
    ∃ rest, write entries =
      (entries.take k).flatMap Entry.bytes ++ (e.header.encode.bytes ++ rest) := by
  have ⟨hlt, he⟩ := List.getElem?_eq_some_iff.mp hk
  refine ⟨e.payload ++ List.replicate (padding (.ofNat e.payload.length)).toNat 0 ++
    write (entries.drop (k + 1)), ?_⟩
  have hd : entries.drop k = e :: entries.drop (k + 1) := he ▸ List.drop_eq_getElem_cons hlt
  calc write entries
    _ = (entries.take k ++ entries.drop k).flatMap Entry.bytes ++ endMark := by
      rw [List.take_append_drop, write]
    _ = _ := by simp [hd, write, Entry.bytes]

theorem getElem?_header (hk : entries[k]? = some e) (hi : i < 512) :
    (write entries)[offset entries k + i]? = e.header.encode.bytes[i]? := by
  have ⟨rest, hw⟩ := exists_write_eq hk
  rw [hw, offset, List.getElem?_append_right (Nat.le_add_right _ _), Nat.add_sub_cancel_left,
    List.getElem?_append_left (by rwa [e.header.encode.size_eq])]

theorem exists_set_write_eq (hk : entries[k]? = some e) (hi : i < 512) (byte : UInt8) :
    ∃ rest, (write entries).set (offset entries k + i) byte =
      (entries.take k).flatMap Entry.bytes ++ ((e.header.encode.set i byte).bytes ++ rest) := by
  have ⟨rest, hw⟩ := exists_write_eq hk
  refine ⟨rest, ?_⟩
  rw [hw, offset, List.set_append_right _ _ (Nat.le_add_right _ _), Nat.add_sub_cancel_left,
    List.set_append_left _ _ (by rwa [e.header.encode.size_eq]), Block.set]

end Archive

theorem Header.decode_of_not_hasChecksum {b : Block} (h : ¬ b.HasChecksum) (bound : UInt64) :
    decode b bound = .error .invalidChecksum := if_neg h

theorem Header.encode_set (h : Header) {i : Nat} {byte : UInt8} (hi : i < 148 ∨ 156 ≤ i ∧ i < 512)
    (hb : h.encode.bytes[i]? ≠ some byte) :
    ¬ isZero (h.encode.set i byte).bytes ∧ ¬ (h.encode.set i byte).HasChecksum :=
  have hf : (h.encode.set i byte).checksumField = h.encode.checksumField :=
    h.encode.checksumField_set (hi.imp_right And.left)
  ⟨h.hasChecksum_encode.not_isZero_of_checksumField hf, h.hasChecksum_encode.not_set hi hb⟩

namespace Listing

variable {limits : Limits} {count : UInt64} {s t : Input} {b : Block} {es : List Entry}
  {hs : List Header} {front rest : List UInt8} {ending : Ending}

theorem headers_of_spans (hf : Archive.Spans limits.componentLength front es)
    (hi : s.Supplies (front ++ rest) ending) (hc : count.toNat + es.length ≤ limits.files.toNat) :
    ∃ t, t.Supplies rest ending ∧ headers limits count s =
      (headers limits (count + .ofNat es.length) t).map (es.map (·.header) ++ ·) := by
  induction hf generalizing s count with
  | nil =>
    have hcount : count + .ofNat ([] : List Entry).length = count := UInt64.add_zero count
    refine ⟨s, hi, ?_⟩
    rw [hcount]
    cases headers limits count s <;> rfl
  | @cons b h payload pad front es hz hd hl hp _ ih =>
    rw [List.length_cons] at hc
    have hbytes : b.bytes ++ payload ++ pad ++ front ++ rest =
        b.bytes ++ (payload ++ pad ++ (front ++ rest)) := by simp
    have ⟨u, hr, hu⟩ := (hbytes ▸ hi).readRecord hz
    have hlt : count < limits.files := by
      rw [UInt64.lt_iff_toNat_lt]
      omega
    have ⟨v, hh, hv⟩ := header_of_supplies hd hl hp hu hlt
    have hone := toNat_add_one_of_lt hlt
    have hle : (count + 1).toNat + es.length ≤ limits.files.toNat := by omega
    have ⟨t, ht, heq⟩ := ih hv hle
    have hcount : count + 1 + .ofNat es.length = count + .ofNat (es.length + 1) := by
      rw [UInt64.ofNat_add, UInt64.add_assoc, UInt64.add_comm 1]
      rfl
    refine ⟨t, ht, ?_⟩
    rw [headers_of_header hr hh, heq, hcount]
    cases headers limits (count + .ofNat (es.length + 1)) t <;> rfl

theorem headers_of_not_hasChecksum (hi : s.Supplies (b.bytes ++ rest) ending)
    (hz : ¬ isZero b.bytes) (hb : ¬ b.HasChecksum) (hc : count < limits.files) :
    headers limits count s = .error .invalidChecksum := by
  have ⟨_, hr, _⟩ := hi.readRecord hz
  apply headers_of_refused hr
  apply header_of_error
  rw [if_neg (UInt64.not_le.mpr hc), Header.decode_of_not_hasChecksum hb]

theorem length_of_headers (h : headers limits count s = .ok hs) (hne : hs ≠ []) :
    count.toNat + hs.length ≤ limits.files.toNat := by
  fun_induction headers limits count s generalizing hs with
  | case1 => cases h
  | case2 =>
    cases h
    exact absurd rfl hne
  | case3 => cases h
  | case4 count s b t hr a u hh ih =>
    have hlt : count < limits.files := by
      by_contra hge
      rw [header, if_pos (UInt64.not_lt.mp hge)] at hh
      cases hh
    have hle := UInt64.lt_iff_toNat_lt.mp hlt
    cases hm : headers limits (count + 1) u with
    | error e =>
      rw [hm] at h
      cases h
    | ok hs' =>
      rw [hm] at h
      cases h
      by_cases hnil : hs' = []
      case pos =>
        rw [hnil, List.length_singleton]
        exact hle
      case neg =>
        have hone := toNat_add_one_of_lt hlt
        have := ih hm hnil
        rw [List.length_cons]
        omega

end Listing

namespace Extractor

theorem record_of_not_hasChecksum {x : Extractor} {s : Session} {b : Block} {bytes : List UInt8}
    {ending : Ending} (hx : x.cancelAfter = none)
    (hs : s.input.Supplies (b.bytes ++ bytes) ending) (hz : ¬ isZero b.bytes)
    (hc : ¬ b.HasChecksum) (root : Path) :
    ∃ input, x.record root s = .error .invalidChecksum { s with input := input } := by
  have ⟨input, hr, _⟩ := hs.readRecord hz
  have hcancel : ¬ x.cancelAfter.any (· ≤ s.input.delivered) := by simp [hx]
  exact ⟨input, record_of_decode_error hcancel hr (Header.decode_of_not_hasChecksum hc _)⟩

end Extractor

theorem Listing.fits_of_ofFile {limits : Limits} {archive : Path} {fs : FileSystem}
    {headers : List Header} {entries : List Entry} (hs : ∀ e ∈ entries, e.Storable)
    (hread : fs.read archive = .ok (Archive.write entries))
    (h : Listing.ofFile fs archive limits = .ok headers) :
    (∀ e ∈ entries, e.header.name.length ≤ limits.componentLength.toNat ∧
      e.header.leading.length ≤ limits.componentLength.toNat) ∧
    entries.length ≤ limits.files.toNat := by
  have hopen := Input.openFile_of_read hread (Archive.head?_write fun e he => (hs e he).name)
  rw [ofFile, hopen] at h
  change Listing.headers limits 0 (.ofBytes (Archive.write entries) .finished []) = _ at h
  obtain ⟨es, hh, hes⟩ := holds_of_headers rfl h
  have hbounds := Archive.bounds_of_entries? hs hh.entries?
  have hheld : Archive.Holds limits.componentLength .finished (Archive.write entries)
      (entries.map Entry.written) :=
    Archive.holds_write .finished fun e he => ⟨hs e he, hbounds e he⟩
  cases hh.entries?.symm.trans hheld.entries?
  refine ⟨hbounds, ?_⟩
  have hlen : headers.length = entries.length := by
    rw [← hes, List.length_map, List.length_map]
  by_cases hnil : headers = []
  case pos =>
    rw [hnil, List.length_nil] at hlen
    omega
  case neg =>
    have hroom := length_of_headers h hnil
    rw [hlen] at hroom
    exact Nat.le_trans (Nat.le_add_left _ _) hroom

section Write

variable {entries : List Entry} {e : Entry} {k i : Nat} {byte : UInt8}
  (hs : ∀ e ∈ entries, e.Storable) (hk : entries[k]? = some e) (hi : i < 148 ∨ 156 ≤ i ∧ i < 512)
  (hbyte : e.header.encode.bytes[i]? ≠ some byte)

include hs hk hi hbyte

theorem Extractor.extract_set_write {limits : Limits} {ending : Ending} {schedule : Schedule}
    {destination : Path} {fs fs' : FileSystem} {summary : Summary}
    (h : Extractor.extract { limits := limits } (.reader (Archive.write entries) ending schedule)
      destination fs = .ok summary fs')
    (ending₁ ending₂ : Ending) (schedule₁ schedule₂ : Schedule) :
    ∃ summary₁ fs₁,
      Extractor.extract { limits := limits }
        (.reader (Archive.write (entries.take k)) ending₁ schedule₁) destination fs =
        .ok summary₁ fs₁ ∧
      Extractor.extract { limits := limits }
        (.reader ((Archive.write entries).set (Archive.offset entries k + i) byte) ending₂
          schedule₂) destination fs = .error .invalidChecksum fs₁ := by
  have ⟨hbounds, names, base, s, t, hb, hc, _⟩ := extract_write_completed hs h
  have ha := hc.suits hb.seen hb.summary
  -- The entries before it are extracted on their own.
  have hfront : ∀ a ∈ entries.take k, a.Storable ∧
      a.header.name.length ≤ limits.componentLength.toNat ∧
      a.header.leading.length ≤ limits.componentLength.toNat := fun a ha =>
    ⟨hs a (List.mem_of_mem_take ha), hbounds a (List.mem_of_mem_take ha)⟩
  have hb₁ := hb.reader (Archive.write (entries.take k)) ending₁ schedule₁
  have ⟨t₁, hc₁, hrun₁⟩ :=
    extract_of_suits (.of_limits limits) hb₁ (Archive.holds_write ending₁ hfront) (ha.take k)
  refine ⟨t₁.summary, t₁.files, hrun₁, ?_⟩
  -- They are also gone through in the archive with the wrong byte, and then comes the header.
  have ⟨rest, hset⟩ := Archive.exists_set_write_eq hk (hi.elim (by omega) And.right) byte
  have hb₂ := hb.reader ((Archive.write entries).set (Archive.offset entries k + i) byte) ending₂
    schedule₂
  have ⟨u, hrec, hc₂, hu⟩ := passes_front (.of_limits limits) hs hbounds hb₂ ha ⟨rfl, hset, rfl⟩
  have ⟨hz, hc⟩ := e.header.encode_set hi hbyte
  have ⟨input, hrecord⟩ :=
    record_of_not_hasChecksum (x := { limits := limits }) rfl hu hz hc (pathTo names)
  rw [hb₂.extract_of_error (hrec.trans (records_of_error hrecord)), ← hc₁.files_eq hc₂ rfl]

theorem Listing.ofFile_set_write {limits : Limits} {archive archive' : Path}
    {fs fs' : FileSystem} {headers : List Header}
    (hread : fs.read archive = .ok (Archive.write entries))
    (h : Listing.ofFile fs archive limits = .ok headers)
    (hread' : fs'.read archive' =
      .ok ((Archive.write entries).set (Archive.offset entries k + i) byte)) :
    Listing.ofFile fs' archive' limits = .error .invalidChecksum := by
  have ⟨hbounds, hfiles⟩ := fits_of_ofFile hs hread h
  have hspans : Archive.Spans limits.componentLength ((entries.take k).flatMap Entry.bytes)
      ((entries.take k).map Entry.written) :=
    Archive.spans_flatMap fun a ha =>
      ⟨hs a (List.mem_of_mem_take ha), hbounds a (List.mem_of_mem_take ha)⟩
  have ⟨hlt, _⟩ := List.getElem?_eq_some_iff.mp hk
  have hlen : ((entries.take k).map Entry.written).length = k := by
    rw [List.length_map, List.length_take, Nat.min_eq_left (Nat.le_of_lt hlt)]
  have hcount : (0 : UInt64) + .ofNat k < limits.files := by
    have := limits.files.toNat_lt
    rw [UInt64.zero_add, UInt64.lt_iff_toNat_lt, UInt64.toNat_ofNat', Nat.mod_eq_of_lt (by omega)]
    omega
  -- The headers before it are listed, and then it is refused.
  have ⟨rest, hset⟩ := Archive.exists_set_write_eq hk (hi.elim (by omega) And.right) byte
  have hfirst : (0 : UInt64).toNat + ((entries.take k).map Entry.written).length ≤
      limits.files.toNat := by
    rw [hlen, UInt64.toNat_zero]
    omega
  have ⟨t, ht, hlist⟩ := headers_of_spans hspans
    (s := .ofBytes ((Archive.write entries).set (Archive.offset entries k + i) byte) .finished [])
    ⟨rfl, hset, rfl⟩ hfirst
  have ⟨hz, hc⟩ := e.header.encode_set hi hbyte
  rw [hlen, headers_of_not_hasChecksum ht hz hc hcount] at hlist
  have hopen := Input.openFile_eq hread' Input.unpack
  rw [if_neg (Archive.not_prefix_set_write hs)] at hopen
  rw [ofFile, hopen]
  exact hlist

end Write

-- One wrong byte in a header is found, whichever header it is, and wherever it stands there but in
-- the checksum. The archive is not listed then, and only the entries before that header are
-- extracted. In general two headers with the same checksum are both sound, or not, according to
-- the sum of their bytes.
theorem Extractor.extract_corrupted (limits : Limits) {entries : List Entry} {k i : Nat}
    {byte : UInt8} (hs : ∀ e ∈ entries, e.Storable) (hk : k < entries.length)
    (hi : i < 148 ∨ 156 ≤ i ∧ i < 512)
    (hbyte : (Archive.write entries)[Archive.offset entries k + i]? ≠ some byte) :
    let corrupted := (Archive.write entries).set (Archive.offset entries k + i) byte
    let run (bytes : List UInt8) (ending : Ending) (schedule : Schedule) :=
      Extractor.extract { limits := limits } (.reader bytes ending schedule)
    (∀ fs fs' archive archive' headers, fs.read archive = .ok (Archive.write entries) →
      fs'.read archive' = .ok corrupted → Listing.ofFile fs archive limits = .ok headers →
      Listing.ofFile fs' archive' limits = .error .invalidChecksum) ∧
    (∀ destination fs ending schedule summary fs',
      run (Archive.write entries) ending schedule destination fs = .ok summary fs' →
      ∀ ending₁ schedule₁ ending₂ schedule₂, ∃ summary₁ fs₁,
        run (Archive.write (entries.take k)) ending₁ schedule₁ destination fs =
          .ok summary₁ fs₁ ∧
        run corrupted ending₂ schedule₂ destination fs = .error .invalidChecksum fs₁ ∧
        ∀ archive, fs.read archive = .ok corrupted →
          Extractor.extract { limits := limits } (.file archive) destination fs =
            .error .invalidChecksum fs₁) ∧
    ∀ b c : Block, b.HasChecksum → c.checksumField = b.checksumField →
      (c.HasChecksum ↔ Block.sum c.summed = Block.sum b.summed) := by
  intro corrupted run
  have he := List.getElem?_eq_getElem hk
  rw [Archive.getElem?_header he (hi.elim (by omega) And.right)] at hbyte
  refine ⟨?list, ?extract, ?blocks⟩
  case list =>
    intro fs fs' archive archive' headers hread hread' hlist
    exact Listing.ofFile_set_write hs he hi hbyte hread hlist hread'
  case extract =>
    intro destination fs ending schedule summary fs' h ending₁ schedule₁ ending₂ schedule₂
    have ⟨summary₁, fs₁, hfront, hrun⟩ :=
      extract_set_write hs he hi hbyte h ending₁ ending₂ schedule₁ schedule₂
    refine ⟨summary₁, fs₁, hfront, hrun, fun archive hread => ?_⟩
    have ⟨_, fs₂, hfront', hrun'⟩ :=
      extract_set_write hs he hi hbyte h ending₁ .finished schedule₁ schedule₂
    cases hfront.symm.trans hfront'
    have hfinds : Input.Decoder.Finds Input.unpack corrupted corrupted .finished :=
      .plain (Archive.not_prefix_set_write hs)
    exact (runFileWith_eq_extract hfinds hread _ destination schedule₂).trans hrun'
  case blocks => exact fun b c hb hf => Block.hasChecksum_iff_of_checksumField hb hf

theorem Extractor.extract_corrupted_size :
    let corrupted := (Archive.write [Entry.docs, Entry.nested]).set (512 + 130) 0x37
    ∃ summary fs',
      Extractor.extract {} (.reader (Archive.write [Entry.docs]) .finished Input.plainSchedule)
        ⟨"out"⟩ (FileSystem.root 0) = .ok summary fs' ∧
      Extractor.extract {} (.reader corrupted .broken ⟨1, [3], by decide⟩) ⟨"out"⟩
        (FileSystem.root 0) = .error .invalidChecksum fs' ∧
      Listing.ofFile (OutputFile.holding (FileSystem.root 0) ["a.tar"] corrupted)
        (pathTo ["a.tar"]) {} = .error .invalidChecksum := by
  intro corrupted
  have ⟨hoffset, _⟩ := Archive.offset_docs_nested
  have hdigit : Entry.nested.header.encode.bytes[130]? = some 0x30 := by decide +kernel
  have hbyte : (Archive.write [Entry.docs, Entry.nested])[
      Archive.offset [Entry.docs, Entry.nested] 1 + 130]? ≠ some 0x37 := by
    rw [Archive.getElem?_header (k := 1) rfl (by decide), hdigit]
    decide
  have ⟨hlist, hextract, _⟩ :=
    extract_corrupted {} Entry.storable_docs_nested (by decide) (by decide) hbyte
  rw [hoffset] at hlist hextract
  have ⟨_, _, h⟩ := extract_docs_nested .finished Input.plainSchedule
  have ⟨summary, fs', hfront, hrun, _⟩ := hextract _ _ _ _ _ _ h .finished Input.plainSchedule
    .broken ⟨1, [3], by decide⟩
  have ⟨_, hintact⟩ :=
    Listing.ofFile_tar (l := {}) Entry.storable_docs_nested (by decide) (by decide)
  exact ⟨summary, fs', hfront, hrun, hlist _ _ _ _ _ (OutputFile.read_tar _)
    (OutputFile.read_tar _) hintact⟩

end TarGuard
