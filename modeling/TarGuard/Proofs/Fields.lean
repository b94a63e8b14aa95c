import Mathlib.Data.List.TakeWhile
import TarGuard.Header.Text
import TarGuard.Proofs.Utf8

namespace TarGuard

namespace FieldText

variable {width : Nat} {s : String} {c : Char}

def stored (width : Nat) (s : String) : List UInt8 :=
  ((Utf8.encode s).take width).takeWhile (· ≠ 0)

theorem content_write (width : Nat) (s : String) : content (write width s) = stored width s := by
  have hnil {n : Nat} : (List.replicate n (0 : UInt8)).takeWhile (· ≠ 0) = [] := by simp
  rw [content, write, fill, List.takeWhile_append, hnil, List.append_nil, stored]
  split
  case isTrue hl => exact ((List.takeWhile_sublist _).eq_of_length hl).symm
  case isFalse => rfl

theorem stored_eq_encode (hz : '\x00' ∉ s.toList) (hl : s.utf8ByteSize ≤ width) :
    stored width s = Utf8.encode s := by
  have hzero := Utf8.zero_not_mem_encode hz
  rw [stored, List.take_of_length_le (Utf8.length_encode s ▸ hl), List.takeWhile_eq_self_iff]
  intro b hb
  rw [decide_eq_true_eq]
  rintro rfl
  exact hzero hb

theorem readLossy_write (hz : '\x00' ∉ s.toList) (hl : s.utf8ByteSize ≤ width) :
    readLossy (write width s) = s := by
  rw [readLossy, content_write, stored_eq_encode hz hl, Utf8.decodeLossy_encode]

def IsPlain (c : Char) : Prop :=
  c = '\t' ∨ ' ' ≤ c ∧ c ≤ '~'

instance : DecidablePred IsPlain :=
  fun _ => inferInstanceAs (Decidable (_ ∨ _))

theorem isPlain_of_all (h : s.toList.all (IsPlain ·)) : ∀ c ∈ s.toList, IsPlain c := by
  simpa using h

structure Holds (width : Nat) (s : String) : Prop where
  plain  : ∀ c ∈ s.toList, IsPlain c
  length : s.length ≤ width

instance (width : Nat) : DecidablePred (Holds width) := fun s =>
  decidable_of_iff (s.toList.all (IsPlain ·) ∧ s.length ≤ width) <| by
    rw [List.all_eq_true]
    exact ⟨fun h => ⟨by simpa using h.1, h.2⟩, fun h => ⟨by simpa using h.plain, h.length⟩⟩

theorem toNat_of_isPlain (h : IsPlain c) : c.toNat = 9 ∨ 0x20 ≤ c.toNat ∧ c.toNat ≤ 0x7e := by
  cases h with
  | inl h => exact .inl (h ▸ rfl)
  | inr h => exact .inr h

def byte (c : Char) : UInt8 :=
  .ofNat c.toNat

theorem toNat_byte (h : IsPlain c) : (byte c).toNat = c.toNat := by
  have := toNat_of_isPlain h
  exact Utf8.toNat_ofNat (by omega)

theorem utf8EncodeChar_of_isPlain (h : IsPlain c) : String.utf8EncodeChar c = [byte c] := by
  have := toNat_of_isPlain h
  exact if_pos (by change c.toNat ≤ 127; omega)

theorem isPrintable_byte (h : IsPlain c) : isPrintable (byte c) := by
  have hc := toNat_of_isPlain h
  rw [← toNat_byte h] at hc
  simp only [isPrintable, Bool.or_eq_true, Bool.and_eq_true, beq_iff_eq, decide_eq_true_eq,
    UInt8.le_iff_toNat_le, ← UInt8.toNat_inj]
  exact hc

theorem encode_of_isPlain (h : ∀ c ∈ s.toList, IsPlain c) : Utf8.encode s = s.toList.map byte := by
  have he : ∀ c ∈ s.toList, String.utf8EncodeChar c = [byte c] :=
    fun c hc => utf8EncodeChar_of_isPlain (h c hc)
  rw [Utf8.encode, List.map_eq_flatMap, List.flatMap_def, List.flatMap_def, List.map_congr_left he]

namespace Holds

theorem length_encode (h : Holds width s) : (Utf8.encode s).length = s.length := by
  rw [encode_of_isPlain h.plain, List.length_map, String.length_toList]

theorem utf8ByteSize_le (h : Holds width s) : s.utf8ByteSize ≤ width := by
  rw [← Utf8.length_encode, h.length_encode]
  exact h.length

theorem no_nul (h : Holds width s) : '\x00' ∉ s.toList :=
  fun hm => absurd (h.plain _ hm) (by decide)

theorem read?_write (h : Holds width s) (bound : UInt64) :
    read? (write width s) bound = if s.length ≤ bound.toNat then some s else none := by
  have hall : (Utf8.encode s).all isPrintable := by
    rw [encode_of_isPlain h.plain, List.all_eq_true]
    intro b hb
    have ⟨c, hc, he⟩ := List.mem_map.mp hb
    exact he ▸ isPrintable_byte (h.plain c hc)
  have hs : String.ofList ((Utf8.encode s).map fun b => Char.ofNat b.toNat) = s := by
    have hid : ∀ c ∈ s.toList, Char.ofNat (byte c).toNat = c := fun c hc => by
      rw [toNat_byte (h.plain c hc), Char.ofNat_toNat]
    have hmap := (List.map_congr_left hid).trans (List.map_id' s.toList)
    rw [encode_of_isPlain h.plain, List.map_map]
    exact (congrArg String.ofList hmap).trans String.ofList_toList
  rw [read?, content_write, stored_eq_encode h.no_nul h.utf8ByteSize_le]
  simp only [hall, hs, h.length_encode, and_true]

theorem not_mem_write (h : Holds width s) : 0x1f ∉ write width s := by
  intro hm
  rw [write, fill, List.mem_append] at hm
  cases hm with
  | inl hm =>
    have hb := List.mem_of_mem_take hm
    rw [encode_of_isPlain h.plain] at hb
    obtain ⟨c, hc, he⟩ := List.mem_map.mp hb
    exact absurd (he ▸ isPrintable_byte (h.plain c hc)) (by decide)
  | inr hm => exact absurd (List.eq_of_mem_replicate hm) (by decide)

end Holds

end FieldText

end TarGuard
