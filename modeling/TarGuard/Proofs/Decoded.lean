import TarGuard.Proofs.Encoding
import TarGuard.Proofs.Listing
import TarGuard.Proofs.Record

namespace TarGuard

namespace FieldText

variable {field : List UInt8} {bound : UInt64} {s : String}

theorem eq_of_read? (h : read? field bound = some s) :
    (content field).all isPrintable ∧
      s = String.ofList ((content field).map fun b => Char.ofNat b.toNat) := by
  obtain ⟨⟨_, hp⟩, hs⟩ := Option.ite_none_right_eq_some.mp h
  cases hs
  exact ⟨hp, rfl⟩

theorem isPlain_of_read? (h : read? field bound = some s) : ∀ c ∈ s.toList, IsPlain c := by
  obtain ⟨hp, rfl⟩ := eq_of_read? h
  rw [String.toList_ofList, List.forall_mem_map]
  exact fun b hb => isPlain_charOfNat (List.all_eq_true.mp hp b hb)

theorem encode_of_read? (h : read? field bound = some s) : Utf8.encode s = content field := by
  obtain ⟨hp, rfl⟩ := eq_of_read? h
  exact encode_ofList_of_isPrintable hp

theorem utf8ByteSize_of_read? (h : read? field bound = some s) :
    s.utf8ByteSize ≤ field.length := by
  rw [← Utf8.length_encode, encode_of_read? h]
  exact (List.takeWhile_sublist _).length_le

end FieldText

namespace Header

variable {b : Block} {bound : UInt64} {h : Header}

theorem isPlain_fullPath (hn : ∀ c ∈ h.name.toList, FieldText.IsPlain c)
    (hl : ∀ c ∈ h.leading.toList, FieldText.IsPlain c) :
    ∀ c ∈ h.fullPath.toList, FieldText.IsPlain c := by
  unfold fullPath
  split
  case isTrue => exact hn
  case isFalse =>
    simp only [String.toList_append, List.forall_mem_append]
    exact ⟨⟨hl, FieldText.isPlain_of_all (by decide)⟩, hn⟩

theorem utf8ByteSize_fullPath_le (h : Header) :
    h.fullPath.utf8ByteSize ≤ h.leading.utf8ByteSize + 1 + h.name.utf8ByteSize := by
  unfold fullPath
  split
  case isTrue => exact Nat.le_add_left _ _
  case isFalse =>
    rw [String.utf8ByteSize_append, String.utf8ByteSize_append]
    exact Nat.le_refl _

-- The numbers of a header are those of its record, and they are small. So is what is made of them:
-- the next record is a number of blocks away.
structure Small (b : Block) (h : Header) : Prop where
  size     : h.size.toNat = Octal.value (Octal.digits (b.field 124 12)) ∧ h.size.toNat < 8 ^ 12
  modified : h.modified.toNat = Octal.value (Octal.digits (b.field 136 12)) ∧
    h.modified.toNat < 8 ^ 12
  mode     : h.mode.toNat = Octal.value (Octal.digits (b.field 100 8)) ∧ h.mode.toNat < 8 ^ 8
  narrowed : (Octal.parse (b.field 100 8)).toNat < UInt32.size
  checksum : h.checksum.toNat = b.checksum
  fullPath : h.fullPath.utf8ByteSize ≤ 256
  padded   : h.paddedSize = .ok (h.size.toNat + (padding h.size).toNat)
  aligned  : 512 ∣ h.size.toNat + (padding h.size).toNat
  fits     : h.size.toNat + (padding h.size).toNat < 2 ^ 64

theorem dvd_size_add_padding (size : UInt64) : 512 ∣ size.toNat + (padding size).toNat := by
  rw [toNat_padding]
  omega

theorem toNat_parse_mode_lt (b : Block) :
    (Octal.parse (b.field 100 8)).toNat < UInt32.size := by
  obtain ⟨hp, hlt⟩ := b.toNat_parse_field 100 8 (by decide) (by decide)
  rw [hp]
  exact Nat.lt_trans hlt (by decide)

namespace DecodedFrom

variable (hd : DecodedFrom b bound h)

include hd

theorem toNat_mode :
    h.mode.toNat = Octal.value (Octal.digits (b.field 100 8)) ∧ h.mode.toNat < 8 ^ 8 := by
  obtain ⟨hp, hlt⟩ := b.toNat_parse_field 100 8 (by decide) (by decide)
  have hs := toNat_parse_mode_lt b
  have hm : h.mode.toNat = Octal.value (Octal.digits (b.field 100 8)) := by
    rw [hd.mode, if_pos hs, UInt64.toNat_toUInt32, Nat.mod_eq_of_lt hs, hp]
  exact ⟨hm, hm ▸ hlt⟩

theorem utf8ByteSize_fullPath : h.fullPath.utf8ByteSize ≤ 256 := by
  have hn := FieldText.utf8ByteSize_of_read? hd.name
  have hl := FieldText.utf8ByteSize_of_read? hd.leading
  rw [b.length_field (by decide)] at hn hl
  have := h.utf8ByteSize_fullPath_le
  omega

end DecodedFrom

theorem small_of_decode (hd : decode b bound = .ok h) : Small b h := by
  have hf := decodedFrom_of_decode hd
  obtain ⟨hs, _⟩ := b.toNat_parse_field 124 12 (by decide) (by decide)
  obtain ⟨hm, hmlt⟩ := b.toNat_parse_field 136 12 (by decide) (by decide)
  rw [← hf.size] at hs
  rw [← hf.modified] at hm
  have hlt := toNat_size_of_decode hd
  have hp := toNat_padding_lt h.size
  exact {
    size := ⟨hs, hlt⟩
    modified := ⟨hm, hm ▸ hmlt⟩
    mode := hf.toNat_mode
    narrowed := toNat_parse_mode_lt b
    checksum := by rw [hf.checksum, hf.guarded]
    fullPath := hf.utf8ByteSize_fullPath
    padded := paddedSize_of_decode hd
    aligned := dvd_size_add_padding h.size
    fits := by omega
  }

end Header

namespace Input

theorem peek_ne_fileTooLarge {s : Input} {wanted : Nat} {e : ExtractError}
    (h : s.peek wanted = .error e) : e ≠ .fileTooLarge := by
  fun_induction peek s wanted with
  | case1 _ _ _ ih => exact ih h
  | case2 =>
    cases h
    decide
  | case3 => cases h

theorem openFile_ne_fileTooLarge {fs : FileSystem} {archive : Path} {decoder : Decoder}
    {e : ExtractError} (h : openFile fs archive decoder = .error e) : e ≠ .fileTooLarge := by
  unfold openFile at h
  split at h
  case h_1 f _ =>
    unfold detect at h
    cases hp : (ofBytes f.content .finished []).peek bufferSize with
    | error e' =>
      rw [hp] at h
      cases h
      exact peek_ne_fileTooLarge hp
    | ok =>
      rw [hp] at h
      cases h
  all_goals
    cases h
    decide

end Input

namespace Listing

variable {limits : Limits}

theorem header_ends (limits : Limits) (count : UInt64) (b : Block) (s : Input) :
    Ends (header limits count b) s
      (fun h t => Header.decode b limits.componentLength = .ok h ∧
        ∃ payload pad, payload.length = h.size.toNat ∧ pad.length = (padding h.size).toNat ∧
          s.Delivers (payload ++ pad) t)
      (fun e _ => e ≠ .fileTooLarge) := by
  apply Ends.require_bind
  case hf =>
    intro e he
    split at he
    case isTrue =>
      cases he
      decide
    case isFalse =>
      rcases Header.decode_error he with rfl | rfl
      all_goals decide
  case hd =>
    intro h hd
    split at hd
    case isTrue => cases hd
    case isFalse =>
      have hskip := Extractor.skipPayload_ends (Header.paddedSize_of_decode hd) s
      refine hskip.bind ?_ fun _ t ht => Ends.pure ⟨hd, ht⟩
      rintro _ _ rfl
      decide

theorem headers_ne_fileTooLarge {count : UInt64} {s : Input} {e : ExtractError}
    (h : headers limits count s = .error e) : e ≠ .fileTooLarge := by
  fun_induction headers limits count s with
  | case1 count s e' t hr =>
    cases h
    rcases (Input.readRecord_ends s).of_error hr with rfl | rfl
    all_goals decide
  | case2 => cases h
  | case3 count s b t hr e' u hh =>
    cases h
    exact (header_ends limits count b t).of_error hh
  | case4 count s b t hr d u hh ih =>
    cases hs : headers limits (count + 1) u with
    | error e' =>
      rw [hs] at h
      cases h
      exact ih hs
    | ok =>
      rw [hs] at h
      cases h

end Listing

-- No number in a header that was decoded comes near the end of its type. So no archive at all is
-- too large to be listed because of a size in it, and no payload is too large to be passed over.
theorem Header.decoded_small :
    (∀ b bound h, decode b bound = .ok h →
      Small b h ∧ ∀ s e t, Input.skipPayload h s = .error e t → e ≠ .fileTooLarge) ∧
    ∀ fs archive limits decoder,
      Listing.ofFile fs archive limits decoder ≠ .error .fileTooLarge := by
  refine ⟨?_, ?_⟩
  · intro b bound h hd
    refine ⟨small_of_decode hd, ?_⟩
    intro s e t hs
    rw [(Extractor.skipPayload_ends (paddedSize_of_decode hd) s).of_error hs]
    decide
  · intro fs archive limits decoder hf
    rw [Listing.ofFile] at hf
    cases ho : Input.openFile fs archive decoder with
    | error e =>
      rw [ho] at hf
      cases hf
      exact Input.openFile_ne_fileTooLarge ho rfl
    | ok s =>
      rw [ho] at hf
      exact Listing.headers_ne_fileTooLarge hf rfl

theorem Header.decoded_small_greeting :
    decode Entry.greeting.header.encode 255 = .ok Entry.greeting.header.written ∧
      Small Entry.greeting.header.encode Entry.greeting.header.written := by
  have hr := Entry.representable_greeting
  have hd : decode Entry.greeting.header.encode 255 = .ok Entry.greeting.header.written := by
    rw [decode_encode hr.name hr.leading, if_pos (by decide)]
  exact ⟨hd, (decoded_small.1 _ _ _ hd).1⟩

end TarGuard
