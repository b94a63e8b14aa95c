import TarGuard.Header.Codec
import TarGuard.Proofs.Fields
import TarGuard.Proofs.Octal

namespace TarGuard

namespace Block

theorem sum_le (bytes : List UInt8) : sum bytes ≤ 255 * bytes.length := by
  induction bytes with
  | nil => exact Nat.le_refl _
  | cons b bs ih =>
    have hb := b.toNat_lt
    have hs : sum (b :: bs) = b.toNat + sum bs := rfl
    rw [hs, List.length_cons]
    omega

theorem field_of_pieces {b : Block} {pieces : List (List UInt8)} {piece : List UInt8} {i : Nat}
    (hb : b.bytes = pieces.flatten) (hp : pieces[i]? = some piece) :
    b.field ((pieces.map List.length).take i).sum piece.length = piece := by
  have ⟨hi, he⟩ := List.getElem?_eq_some_iff.mp hp
  have hs : (pieces.take i).flatten.length = ((pieces.map List.length).take i).sum := by
    rw [List.length_flatten, List.map_take]
  have hf : pieces.flatten =
      (pieces.take i).flatten ++ (piece ++ (pieces.drop (i + 1)).flatten) := by
    rw [← he, ← List.flatten_cons, List.getElem_cons_drop, ← List.flatten_append,
      List.take_append_drop]
  rw [field, hb, hf, List.drop_left' hs, List.take_left' rfl]

theorem get_of_field {b : Block} {i : Nat} {x : UInt8} (h : b.field i 1 = [x])
    (hi : i < b.bytes.length) : b.bytes.get ⟨i, hi⟩ = x := by
  rw [field, List.drop_eq_getElem_cons hi] at h
  exact List.head_eq_of_cons_eq h

end Block

namespace Header

open FieldText

variable (h : Header)

theorem length_octalField (width n : Nat) : (octalField (width + 1) n).length = width + 1 := by
  simp [octalField, Octal.length_write]

theorem parse_octalField (width : Nat) (hw : 0 < width) (hs : 8 ^ width ≤ UInt64.size) (n : Nat) :
    Octal.parse (octalField (width + 1) n) = .ofNat (n % 8 ^ width) :=
  have hlt := Nat.mod_lt n (Nat.pow_pos (by decide))
  Octal.parse_write hw (Nat.lt_of_lt_of_le hlt hs) []

def guard : Nat :=
  Block.sum h.front + 8 * 0x20 + Block.sum h.back

theorem guard_lt : h.guard < 8 ^ 6 := by
  have hf := Block.sum_le h.front
  have hb := Block.sum_le h.back
  rw [length_front] at hf
  rw [length_back] at hb
  unfold guard
  omega

def fields : List (List UInt8) :=
  [write 100 h.name, octalField 8 h.mode.toNat, octalField 8 0, octalField 8 0,
    octalField 12 h.size.toNat, octalField 12 h.modified.toNat, checksumField h.guard, [h.flag],
    write 100 h.linkName, [0x75, 0x73, 0x74, 0x61, 0x72, 0, 0x30, 0x30], List.replicate 80 0,
    write 155 h.leading, List.replicate 12 0]

def widths : List Nat :=
  [100, 8, 8, 8, 12, 12, 8, 1, 100, 8, 80, 155, 12]

theorem length_fields : h.fields.map List.length = widths := by
  simp [fields, widths, length_write, length_octalField, checksumField, Octal.length_write]

theorem bytes_encode : h.encode.bytes = h.fields.flatten := by
  simp [encode, fields, front, back, guard]

theorem field_encode {i start width : Nat} {piece : List UInt8} (hp : h.fields[i]? = some piece)
    (hs : (widths.take i).sum = start) (hw : widths[i]? = some width) :
    h.encode.field start width = piece := by
  have hf := Block.field_of_pieces h.bytes_encode hp
  have hl : widths[i]? = some piece.length := by rw [← h.length_fields, List.getElem?_map, hp]; rfl
  cases hl.symm.trans hw
  rwa [h.length_fields, hs] at hf

theorem checksum_encode : h.encode.checksum = h.guard := by
  have hl : (h.front ++ checksumField h.guard).length = 156 := by
    simp [checksumField, length_front, Octal.length_write]
  have hb : h.encode.bytes = h.front ++ (checksumField h.guard ++ h.back) :=
    List.append_assoc _ _ _
  have ht : h.encode.bytes.take 148 = h.front := by rw [hb, List.take_left' h.length_front]
  have hd : h.encode.bytes.drop 156 = h.back := List.drop_left' hl
  rw [Block.checksum, ht, hd, guard]

theorem parse_checksumField {n : Nat} (hn : n < 8 ^ 6) :
    Octal.parse (checksumField n) = .ofNat n := by
  have hm : n % 8 ^ 6 = n := Nat.mod_eq_of_lt hn
  have hs : n % 8 ^ 6 < UInt64.size := Nat.lt_trans (hm ▸ hn) (by decide)
  rw [checksumField, Octal.parse_write (by decide) hs, hm]

theorem checksumField_encode : h.encode.checksumField = checksumField h.guard :=
  h.field_encode (i := 6) rfl rfl rfl

theorem hasChecksum_encode : h.encode.HasChecksum := by
  have hg : h.guard < UInt64.size := Nat.lt_trans h.guard_lt (by decide)
  rw [Block.HasChecksum, h.checksumField_encode, parse_checksumField h.guard_lt,
    UInt64.toNat_ofNat_of_lt' hg, checksum_encode]

theorem toUInt32_of_lt {n : Nat} (hn : n < UInt32.size) :
    (if (UInt64.ofNat n).toNat < UInt32.size then (UInt64.ofNat n).toUInt32 else 0) = .ofNat n := by
  have hw : (UInt64.ofNat n).toNat = n :=
    UInt64.toNat_ofNat_of_lt' (Nat.lt_trans hn (by decide : UInt32.size < UInt64.size))
  rw [hw, if_pos hn, ← UInt32.toNat_inj, UInt64.toNat_toUInt32, hw, UInt32.toNat_ofNat']

-- What is left of a header after it was written: numbers lose the digits for which there is no
-- room, and the link name loses its end.
def written : Header where
  name := h.name
  leading := h.leading
  linkName := readLossy (write 100 h.linkName)
  mode := .ofNat (h.mode.toNat % 8 ^ 7)
  size := .ofNat (h.size.toNat % 8 ^ 11)
  modified := .ofNat (h.modified.toNat % 8 ^ 11)
  checksum := .ofNat h.encode.checksum
  flag := h.flag

variable {h}

theorem kind_written : h.written.kind = h.kind := by
  rw [written, kind, kind]

theorem fullPath_written : h.written.fullPath = h.fullPath := by
  rw [written, fullPath, fullPath]

theorem decode_encode_eq (h : Header) (bound : UInt64) :
    decode h.encode bound =
      (read? (write 100 h.name) bound).elim (.error .invalidHeader) fun name =>
        (read? (write 155 h.leading) bound).elim (.error .invalidHeader) fun leading =>
          .ok { h.written with name := name, leading := leading } := by
  have hname : h.encode.field 0 100 = write 100 h.name := h.field_encode (i := 0) rfl rfl rfl
  have hleading : h.encode.field 345 155 = write 155 h.leading :=
    h.field_encode (i := 11) rfl rfl rfl
  have hlink : h.encode.field 157 100 = write 100 h.linkName :=
    h.field_encode (i := 8) rfl rfl rfl
  have hmode : h.encode.field 100 8 = octalField 8 h.mode.toNat :=
    h.field_encode (i := 1) rfl rfl rfl
  have hsize : h.encode.field 124 12 = octalField 12 h.size.toNat :=
    h.field_encode (i := 4) rfl rfl rfl
  have hmodified : h.encode.field 136 12 = octalField 12 h.modified.toNat :=
    h.field_encode (i := 5) rfl rfl rfl
  have hflag : h.encode.bytes.get ⟨156, by simp [h.encode.size_eq]⟩ = h.flag :=
    Block.get_of_field (h.field_encode (i := 7) rfl rfl rfl) _
  have hm : h.mode.toNat % 8 ^ 7 < UInt32.size :=
    Nat.lt_trans (Nat.mod_lt _ (by decide)) (by decide : 8 ^ 7 < UInt32.size)
  rw [decode, if_pos h.hasChecksum_encode]
  simp only [hname, hleading, hlink, hmode, hsize, hmodified, hflag, h.checksumField_encode,
    parse_checksumField h.guard_lt, parse_octalField 7 (by decide) (by decide),
    parse_octalField 11 (by decide) (by decide), toUInt32_of_lt hm, written, checksum_encode]
  cases read? (write 100 h.name) bound <;> cases read? (write 155 h.leading) bound <;> rfl

theorem decode_encode (hn : Holds 100 h.name) (hl : Holds 155 h.leading) (bound : UInt64) :
    decode h.encode bound =
      if h.name.length ≤ bound.toNat ∧ h.leading.length ≤ bound.toNat then .ok h.written
      else .error .invalidHeader := by
  rw [decode_encode_eq, hn.read?_write, hl.read?_write]
  by_cases hnb : h.name.length ≤ bound.toNat
  case neg => simp [hnb]
  case pos =>
    by_cases hlb : h.leading.length ≤ bound.toNat
    case neg => rw [if_pos hnb, if_neg hlb, if_neg (not_and_of_not_right _ hlb)]; rfl
    case pos => rw [if_pos hnb, if_pos hlb, if_pos ⟨hnb, hlb⟩]; rfl

theorem not_isZero_encode (h : Header) : ¬ isZero h.encode.bytes := by
  intro hz
  have hm : 0x75 ∈ h.encode.bytes := by
    rw [h.bytes_encode, List.mem_flatten]
    exact ⟨_, List.mem_of_getElem? (show h.fields[9]? = some _ from rfl), List.mem_cons_self⟩
  exact absurd (List.all_eq_true.mp hz _ hm) (by decide)

theorem head?_encode (hn : Holds 100 h.name) : h.encode.bytes.head? ≠ some 0x1f := by
  intro hh
  have hf : h.encode.field 0 100 = write 100 h.name := h.field_encode (i := 0) rfl rfl rfl
  refine hn.not_mem_write ?_
  rw [← hf, Block.field, List.drop_zero]
  obtain ⟨rest, hr⟩ := List.head?_eq_some_iff.mp hh
  rw [hr]
  exact List.mem_cons_self

structure Representable (h : Header) : Prop where
  name     : Holds 100 h.name
  leading  : Holds 155 h.leading
  linkName : '\x00' ∉ h.linkName.toList ∧ h.linkName.utf8ByteSize ≤ 100
  mode     : h.mode.toNat < 8 ^ 7
  size     : h.size.toNat < 8 ^ 11
  modified : h.modified.toNat < 8 ^ 11

theorem Representable.written (hr : h.Representable) :
    h.written = { h with checksum := .ofNat h.encode.checksum } := by
  rw [Header.written, readLossy_write hr.linkName.1 hr.linkName.2, Nat.mod_eq_of_lt hr.mode,
    Nat.mod_eq_of_lt hr.size, Nat.mod_eq_of_lt hr.modified, UInt32.ofNat_toNat, UInt64.ofNat_toNat,
    UInt64.ofNat_toNat]

end Header
end TarGuard
