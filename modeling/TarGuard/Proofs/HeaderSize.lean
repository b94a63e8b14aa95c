import TarGuard.Proofs.Octal

namespace TarGuard

namespace Octal

variable {ds field : List UInt8}

theorem value_lt (hd : ∀ d ∈ ds, isDigit d) : value ds < 8 ^ ds.length := by
  have hlt : ∀ x ∈ (ds.map fun d => d.toNat - 0x30).reverse, x < 8 := by
    intro x hx
    obtain ⟨d, hm, rfl⟩ := List.mem_map.mp (List.mem_reverse.mp hx)
    have := isDigit_iff_toNat.mp (hd d hm)
    omega
  have hn := Nat.ofDigits_lt_base_pow_length (by decide) hlt
  rwa [List.length_reverse, List.length_map, ← number, number_eq_value] at hn

theorem length_digits_le (field : List UInt8) : (digits field).length ≤ field.length :=
  Nat.le_trans (List.takeWhile_sublist _).length_le (List.dropWhile_sublist _).length_le

theorem toNat_parse_of_length_le (h : field.length ≤ 21) :
    (parse field).toNat = value (digits field) ∧
      value (digits field) < 8 ^ field.length := by
  have hv : value (digits field) < 8 ^ field.length :=
    Nat.lt_of_lt_of_le (value_lt fun _ => isDigit_of_mem_digits)
      (Nat.pow_le_pow_right (by decide) (length_digits_le field))
  have hs : 8 ^ field.length ≤ 8 ^ 21 := Nat.pow_le_pow_right (by decide) h
  have hfits : value (digits field) < UInt64.size :=
    Nat.lt_of_lt_of_le hv (Nat.le_trans hs (by decide))
  exact ⟨by rw [toNat_parse, if_pos hfits], hv⟩

end Octal

theorem Block.length_field (b : Block) {start width : Nat} (h : start + width ≤ 512) :
    (b.field start width).length = width := by
  rw [field, List.length_take, List.length_drop, b.size_eq]
  omega

theorem Block.toNat_parse_field (b : Block) (start width : Nat) (h : start + width ≤ 512)
    (hw : width ≤ 21) :
    (Octal.parse (b.field start width)).toNat = Octal.value (Octal.digits (b.field start width)) ∧
      Octal.value (Octal.digits (b.field start width)) < 8 ^ width := by
  have hl := b.length_field h
  have hp := Octal.toNat_parse_of_length_le (Nat.le_trans (Nat.le_of_eq hl) hw)
  rwa [hl] at hp

namespace Header

variable {b : Block} {bound : UInt64} {h : Header}

structure DecodedFrom (b : Block) (bound : UInt64) (h : Header) : Prop where
  guarded  : b.HasChecksum
  name     : FieldText.read? (b.field 0 100) bound = some h.name
  leading  : FieldText.read? (b.field 345 155) bound = some h.leading
  mode     : h.mode = if (Octal.parse (b.field 100 8)).toNat < UInt32.size
    then (Octal.parse (b.field 100 8)).toUInt32 else 0
  size     : h.size = Octal.parse (b.field 124 12)
  modified : h.modified = Octal.parse (b.field 136 12)
  checksum : h.checksum = Octal.parse b.checksumField

theorem decodedFrom_of_decode (hd : decode b bound = .ok h) : DecodedFrom b bound h := by
  unfold decode at hd
  split at hd
  case isFalse => cases hd
  case isTrue hc =>
    split at hd
    case h_2 => cases hd
    case h_1 name leading hn hl =>
      cases hd
      exact ⟨hc, hn, hl, rfl, rfl, rfl, rfl⟩

theorem decode_error {e : ExtractError} (hd : decode b bound = .error e) :
    e = .invalidChecksum ∨ e = .invalidHeader := by
  unfold decode at hd
  split at hd
  case isFalse => exact .inl (Except.error.inj hd).symm
  case isTrue =>
    split at hd <;> cases hd
    exact .inr rfl

theorem toNat_size_of_decode (hd : decode b bound = .ok h) : h.size.toNat < 8 ^ 12 := by
  obtain ⟨hp, hlt⟩ := b.toNat_parse_field 124 12 (by decide) (by decide)
  rwa [(decodedFrom_of_decode hd).size, hp]

theorem toNat_padding_lt (size : UInt64) : (padding size).toNat < 512 := by
  rw [padding, UInt64.toNat_mod]
  exact Nat.mod_lt _ (by decide)

theorem paddedSize_of_decode (hd : decode b bound = .ok h) :
    h.paddedSize = .ok (h.size.toNat + (padding h.size).toNat) := by
  have hs := toNat_size_of_decode hd
  have hp := toNat_padding_lt h.size
  have hu : UInt64.size = 2 ^ 64 := rfl
  rw [paddedSize, if_pos (by omega)]

end Header
end TarGuard
