import TarGuard.Archive
import TarGuard.Gzip.Member
import TarGuard.Proofs.Codec

namespace TarGuard

namespace Utf8

variable {b : UInt8} {s : String}

theorem utf8EncodeChar_cases (c : Char) :
    (∃ b, String.utf8EncodeChar c = [b] ∧ b.toNat < 0x80) ∨
    ∃ b bs, String.utf8EncodeChar c = b :: bs ∧ 0xc0 ≤ b.toNat := by
  unfold String.utf8EncodeChar
  simp only
  split
  case isTrue h => exact .inl ⟨_, rfl, by rw [toNat_ofNat] <;> omega⟩
  case isFalse =>
    refine .inr ?_
    split
    case isTrue => exact ⟨_, _, rfl, by rw [toNat_ofNat] <;> omega⟩
    case isFalse =>
      split
      case isTrue => exact ⟨_, _, rfl, by rw [toNat_ofNat] <;> omega⟩
      case isFalse => exact ⟨_, _, rfl, by rw [toNat_ofNat] <;> omega⟩

theorem first_encode (cs : List Char) :
    (cs.flatMap String.utf8EncodeChar)[0]?.getD 0 ≠ 0x8b := by
  cases cs with
  | nil => decide
  | cons c cs =>
    rcases utf8EncodeChar_cases c with ⟨b, hb, hlt⟩ | ⟨b, bs, hb, hle⟩
    all_goals
      rw [List.flatMap_cons, hb]
      rintro rfl
    · exact absurd hlt (by decide)
    · exact absurd hle (by decide)

end Utf8

namespace FieldText

variable {width i : Nat} {bytes : List UInt8} {bound : UInt64} {s : String}

theorem getElem?_fill (hi : i < width) : (fill width bytes)[i]? = some (bytes[i]?.getD 0) := by
  rw [fill, List.getElem?_append, List.length_take]
  by_cases hl : i < bytes.length
  case pos =>
    rw [if_pos (by omega), List.getElem?_take, if_pos hi, List.getElem?_eq_getElem hl,
      Option.getD_some]
  case neg =>
    rw [if_neg (by omega), List.getElem?_replicate, if_pos (by omega),
      List.getElem?_eq_none (by omega), Option.getD_none]

-- No text begins like a compressed file: there is no character behind the first byte that could
-- begin with the second.
theorem not_prefix_write (hw : 2 ≤ width) (s : String) (rest : List UInt8) :
    ¬ [0x1f, 0x8b] <+: write width s ++ rest := by
  intro hp
  have hwrite : [0x1f, 0x8b] <+: write width s :=
    List.prefix_of_prefix_length_le hp (List.prefix_append _ _) (by simpa [length_write] using hw)
  rw [List.prefix_iff_getElem?] at hwrite
  have h₀ := hwrite 0 (by decide)
  have h₁ := hwrite 1 (by decide)
  rw [write, getElem?_fill (by omega), Option.some.injEq] at h₀ h₁
  rw [Utf8.encode] at h₀ h₁
  cases hs : s.toList with
  | nil =>
    rw [hs] at h₀
    exact absurd h₀ (by decide)
  | cons c cs =>
    rw [hs, List.flatMap_cons] at h₀ h₁
    rcases Utf8.utf8EncodeChar_cases c with ⟨b, hb, _⟩ | ⟨b, bs, hb, hle⟩
    · rw [hb] at h₁
      exact Utf8.first_encode cs h₁
    · rw [hb] at h₀
      cases h₀
      exact absurd hle (by decide)

structure IsReadable (bound : UInt64) (bytes : List UInt8) : Prop where
  short     : bytes.length ≤ bound.toNat
  printable : ∀ b ∈ bytes, b = 9 ∨ 0x20 ≤ b ∧ b ≤ 0x7e

theorem isReadable_iff :
    IsReadable bound bytes ↔ bytes.length ≤ bound.toNat ∧ bytes.all isPrintable := by
  have hp : bytes.all isPrintable ↔ ∀ b ∈ bytes, b = 9 ∨ 0x20 ≤ b ∧ b ≤ 0x7e := by
    simp [isPrintable]
  rw [hp]
  exact ⟨fun h => ⟨h.short, h.printable⟩, fun h => ⟨h.1, h.2⟩⟩

theorem toNat_charOfNat (b : UInt8) : (Char.ofNat b.toNat).toNat = b.toNat := by
  have hv : b.toNat.isValidChar := .inl (Nat.lt_trans b.toNat_lt (by decide))
  rw [Char.ofNat, dif_pos hv]
  rfl

theorem isPlain_charOfNat {b : UInt8} (h : isPrintable b) : IsPlain (Char.ofNat b.toNat) := by
  simp only [isPrintable, Bool.or_eq_true, beq_iff_eq, Bool.and_eq_true, decide_eq_true_eq,
    UInt8.le_iff_toNat_le] at h
  refine h.imp (fun h => by rw [h]; rfl) fun h => ?_
  rw [Char.le_def, Char.le_def, UInt32.le_iff_toNat_le, UInt32.le_iff_toNat_le]
  change 32 ≤ (Char.ofNat b.toNat).toNat ∧ (Char.ofNat b.toNat).toNat ≤ 126
  rw [toNat_charOfNat]
  exact h

theorem encode_ofList_of_isPrintable (h : bytes.all isPrintable) :
    Utf8.encode (String.ofList (bytes.map fun b => Char.ofNat b.toNat)) = bytes := by
  have hid (b : UInt8) : byte (Char.ofNat b.toNat) = b := by
    rw [byte, toNat_charOfNat, UInt8.ofNat_toNat]
  rw [encode_of_isPlain, String.toList_ofList, List.map_map]
  · simp [Function.comp_def, hid]
  · rw [String.toList_ofList, List.forall_mem_map]
    exact fun b hb => isPlain_charOfNat (List.all_eq_true.mp h b hb)

theorem read?_write_of_isReadable (h : IsReadable bound (stored width s)) :
    ∃ t, read? (write width s) bound = some t ∧ Utf8.encode t = stored width s := by
  have hp := isReadable_iff.mp h
  refine ⟨_, ?_, encode_ofList_of_isPrintable hp.2⟩
  rw [read?, content_write]
  exact if_pos hp

theorem read?_write_of_not_isReadable (h : ¬ IsReadable bound (stored width s)) :
    read? (write width s) bound = none := by
  rw [read?, content_write]
  exact if_neg (mt isReadable_iff.mpr h)

end FieldText

namespace Header

open FieldText

variable {h d : Header} {bound : UInt64}

structure ReadsBack (h d : Header) : Prop where
  name     : Utf8.encode d.name = stored 100 h.name
  leading  : Utf8.encode d.leading = stored 155 h.leading
  linkName : d.linkName = Utf8.decodeLossy (stored 100 h.linkName)
  mode     : d.mode.toNat = h.mode.toNat % 8 ^ 7
  size     : d.size.toNat = h.size.toNat % 8 ^ 11
  modified : d.modified.toNat = h.modified.toNat % 8 ^ 11
  checksum : d.checksum.toNat = h.encode.checksum
  flag     : d.flag = h.flag

theorem readsBack_written {name leading : String} (hn : Utf8.encode name = stored 100 h.name)
    (hl : Utf8.encode leading = stored 155 h.leading) :
    ReadsBack h { h.written with name := name, leading := leading } where
  name := hn
  leading := hl
  linkName := by rw [written, readLossy, content_write]
  mode := UInt32.toNat_ofNat_of_lt' (Nat.lt_trans (Nat.mod_lt _ (by decide)) (by decide))
  size := UInt64.toNat_ofNat_of_lt' (Nat.lt_trans (Nat.mod_lt _ (by decide)) (by decide))
  modified := UInt64.toNat_ofNat_of_lt' (Nat.lt_trans (Nat.mod_lt _ (by decide)) (by decide))
  checksum := by
    rw [written, UInt64.toNat_ofNat_of_lt']
    rw [checksum_encode]
    exact Nat.lt_trans h.guard_lt (by decide)
  flag := rfl

theorem exists_checksumField_encode (h : Header) :
    ∃ digits, h.encode.checksumField = digits ++ [0, 0x20] ∧ digits.length = 6 ∧
      ∀ d ∈ digits, 0x30 ≤ d ∧ d ≤ 0x37 := by
  refine ⟨Octal.write 6 h.guard, h.checksumField_encode, Octal.length_write 6 h.guard, ?_⟩
  exact fun d hd => Octal.isDigit_iff.mp (Octal.isDigit_of_mem_write hd)

theorem not_prefix_encode (h : Header) : ¬ [0x1f, 0x8b] <+: h.encode.bytes := by
  rw [bytes_encode, fields, List.flatten_cons]
  exact not_prefix_write (by decide) h.name _

theorem decode_encode_of_not_isReadable
    (hnot : ¬ (IsReadable bound (stored 100 h.name) ∧ IsReadable bound (stored 155 h.leading))) :
    decode h.encode bound = .error .invalidHeader := by
  rw [decode_encode_eq]
  rcases not_and_or.mp hnot with hn | hl
  · rw [read?_write_of_not_isReadable hn, Option.elim_none]
  · rw [read?_write_of_not_isReadable hl]
    cases read? (write 100 h.name) bound <;> rfl

-- The record of a header is sound, whatever the header says, and cannot be taken for the end of an
-- archive or for a compressed one. It is read back if what is left of its names can be read, and
-- nothing is lost of a header that has room in its record.
theorem encode_decodes (h : Header) (bound : UInt64) :
    (∃ digits, h.encode.checksumField = digits ++ [0, 0x20] ∧ digits.length = 6 ∧
      ∀ d ∈ digits, 0x30 ≤ d ∧ d ≤ 0x37) ∧
    h.encode.HasChecksum ∧ ¬ isZero h.encode.bytes ∧ ¬ [0x1f, 0x8b] <+: h.encode.bytes ∧
    (IsReadable bound (stored 100 h.name) ∧ IsReadable bound (stored 155 h.leading) →
      ∃ d, decode h.encode bound = .ok d ∧ ReadsBack h d) ∧
    (¬ (IsReadable bound (stored 100 h.name) ∧ IsReadable bound (stored 155 h.leading)) →
      decode h.encode bound = .error .invalidHeader) ∧
    (h.Representable → h.name.length ≤ bound.toNat → h.leading.length ≤ bound.toNat →
      decode h.encode bound = .ok { h with checksum := .ofNat h.encode.checksum }) := by
  refine ⟨h.exists_checksumField_encode, h.hasChecksum_encode, h.not_isZero_encode,
    h.not_prefix_encode, ?_, decode_encode_of_not_isReadable, ?_⟩
  · rintro ⟨hn, hl⟩
    obtain ⟨name, hname, hn⟩ := read?_write_of_isReadable hn
    obtain ⟨leading, hleading, hl⟩ := read?_write_of_isReadable hl
    exact ⟨_, by rw [decode_encode_eq, hname, hleading]; rfl, readsBack_written hn hl⟩
  · intro hr hn hl
    rw [decode_encode hr.name hr.leading, if_pos ⟨hn, hl⟩, hr.written]

theorem encode_decodes_cut :
    let h : Header := { name := "a\x00b", mode := 0o10000644 }
    IsReadable 1 (stored 100 h.name) ∧ IsReadable 1 (stored 155 h.leading) ∧
      ∃ d, decode h.encode 1 = .ok d ∧ Utf8.encode d.name = [0x61] ∧ d.mode.toNat = 0o644 := by
  intro h
  have hn : IsReadable 1 (stored 100 h.name) := isReadable_iff.mpr (by decide)
  have hl : IsReadable 1 (stored 155 h.leading) := isReadable_iff.mpr (by decide)
  obtain ⟨_, _, _, _, hread, _⟩ := encode_decodes h 1
  obtain ⟨d, hd, hback⟩ := hread ⟨hn, hl⟩
  exact ⟨hn, hl, d, hd, hback.name.trans (by decide), hback.mode.trans (by decide)⟩

end Header

theorem Archive.not_magic_write (entries : List Entry) : ¬ Gzip.magic <+: write entries := by
  intro hm
  cases entries with
  | nil =>
    have hzero : 0x1f ∈ List.replicate 1024 (0 : UInt8) := hm.subset List.mem_cons_self
    exact absurd (List.eq_of_mem_replicate hzero) (by decide)
  | cons e es =>
    rw [write, List.flatMap_cons, Entry.bytes] at hm
    simp only [List.append_assoc] at hm
    apply e.header.not_prefix_encode
    refine List.prefix_of_prefix_length_le hm (List.prefix_append _ _) ?_
    rw [e.header.encode.size_eq]
    decide

end TarGuard
