import TarGuard.Text.Utf8

namespace TarGuard.Utf8

theorem toNat_ofNat {n : Nat} (h : n < 256) : (UInt8.ofNat n).toNat = n := by
  rw [UInt8.toNat_ofNat', Nat.mod_eq_of_lt h]

theorem start_eq (b : UInt8) :
    start b =
      if b.toNat < 0x80 then ([Char.ofNat b.toNat], none)
      else if b.toNat < 0xc2 then ([replacement], none)
      else if b.toNat < 0xe0 then ([], some ⟨b.toNat % 32, 1, 0x80, 0xbf⟩)
      else if b.toNat < 0xf0 then
        ([], some ⟨b.toNat % 16, 2, if b.toNat = 0xe0 then 0xa0 else 0x80,
          if b.toNat = 0xed then 0x9f else 0xbf⟩)
      else if b.toNat < 0xf5 then
        ([], some ⟨b.toNat % 8, 3, if b.toNat = 0xf0 then 0x90 else 0x80,
          if b.toNat = 0xf4 then 0x8f else 0xbf⟩)
      else ([replacement], none) := by
  simp only [start, UInt8.lt_iff_toNat_lt, ← UInt8.toNat_inj]
  rfl

theorem decodeFrom_cons (p : Option Pending) (b : UInt8) (bs : List UInt8) :
    decodeFrom p (b :: bs) = (step p b).1 ++ decodeFrom (step p b).2 bs := by
  cases p <;> rfl

section Start

variable {n : Nat} {rest : List UInt8}

theorem decodeFrom_one (h : n < 0x80) :
    decodeFrom none (.ofNat n :: rest) = Char.ofNat n :: decodeFrom none rest := by
  rw [decodeFrom_cons, step, start_eq, toNat_ofNat (by omega), if_pos h]
  rfl

theorem decodeFrom_two (hl : 2 ≤ n) (hh : n < 32) :
    decodeFrom none (.ofNat (n + 0xc0) :: rest) =
      decodeFrom (some ⟨n, 1, 0x80, 0xbf⟩) rest := by
  have hn : (n + 0xc0) % 32 = n := by omega
  rw [decodeFrom_cons, step, start_eq, toNat_ofNat (by omega), if_neg (by omega),
    if_neg (by omega), if_pos (by omega), hn]
  rfl

theorem decodeFrom_three (h : n < 16) :
    decodeFrom none (.ofNat (n + 0xe0) :: rest) =
      decodeFrom (some ⟨n, 2, if n = 0 then 0xa0 else 0x80, if n = 13 then 0x9f else 0xbf⟩)
        rest := by
  have hn : (n + 0xe0) % 16 = n := by omega
  have hl : n + 0xe0 = 0xe0 ↔ n = 0 := by omega
  have hh : n + 0xe0 = 0xed ↔ n = 13 := by omega
  rw [decodeFrom_cons, step, start_eq, toNat_ofNat (by omega), if_neg (by omega),
    if_neg (by omega), if_neg (by omega), if_pos (by omega)]
  simp only [hn, hl, hh]
  rfl

theorem decodeFrom_four (h : n < 5) :
    decodeFrom none (.ofNat (n + 0xf0) :: rest) =
      decodeFrom (some ⟨n, 3, if n = 0 then 0x90 else 0x80, if n = 4 then 0x8f else 0xbf⟩)
        rest := by
  have hn : (n + 0xf0) % 8 = n := by omega
  have hl : n + 0xf0 = 0xf0 ↔ n = 0 := by omega
  have hh : n + 0xf0 = 0xf4 ↔ n = 4 := by omega
  rw [decodeFrom_cons, step, start_eq, toNat_ofNat (by omega), if_neg (by omega),
    if_neg (by omega), if_neg (by omega), if_neg (by omega), if_pos (by omega)]
  simp only [hn, hl, hh]
  rfl

end Start

section Continue

variable {bits n : Nat} {low high : UInt8} {rest : List UInt8}

theorem step_some {missing : Nat} (hl : low.toNat ≤ n % 64 + 0x80)
    (hh : n % 64 + 0x80 ≤ high.toNat) :
    step (some ⟨bits, missing, low, high⟩) (.ofNat (n % 64 + 0x80)) =
      if missing = 1 then ([Char.ofNat (bits * 64 + n % 64)], none)
      else ([], some ⟨bits * 64 + n % 64, missing - 1, 0x80, 0xbf⟩) := by
  have hn : (UInt8.ofNat (n % 64 + 0x80)).toNat = n % 64 + 0x80 := toNat_ofNat (by omega)
  have hin : low ≤ .ofNat (n % 64 + 0x80) ∧ .ofNat (n % 64 + 0x80) ≤ high := by
    rw [UInt8.le_iff_toNat_le, UInt8.le_iff_toNat_le, hn]
    exact ⟨hl, hh⟩
  have hm : (n % 64 + 0x80) % 64 = n % 64 := by omega
  rw [step, if_pos hin, hn, hm]

theorem decodeFrom_more {missing : Nat} (hl : low.toNat ≤ n % 64 + 0x80)
    (hh : n % 64 + 0x80 ≤ high.toNat) :
    decodeFrom (some ⟨bits, missing + 2, low, high⟩) (.ofNat (n % 64 + 0x80) :: rest) =
      decodeFrom (some ⟨bits * 64 + n % 64, missing + 1, 0x80, 0xbf⟩) rest := by
  rw [decodeFrom_cons, step_some hl hh, if_neg (by omega)]
  rfl

theorem decodeFrom_last (hl : low.toNat ≤ n % 64 + 0x80) (hh : n % 64 + 0x80 ≤ high.toNat) :
    decodeFrom (some ⟨bits, 1, low, high⟩) (.ofNat (n % 64 + 0x80) :: rest) =
      Char.ofNat (bits * 64 + n % 64) :: decodeFrom none rest := by
  rw [decodeFrom_cons, step_some hl hh, if_pos rfl]
  rfl

end Continue

theorem low_le (n : Nat) : (0x80 : UInt8).toNat ≤ n % 64 + 0x80 :=
  Nat.le_add_left _ _

theorem le_high (n : Nat) : n % 64 + 0x80 ≤ (0xbf : UInt8).toNat := by
  change _ ≤ 0xbf
  omega

-- The bounds on the second byte let through what is not written in a longer way than need be, is no
-- surrogate and does not lie above the last character.
theorem decodeFrom_utf8EncodeChar (c : Char) (rest : List UInt8) :
    decodeFrom none (String.utf8EncodeChar c ++ rest) = c :: decodeFrom none rest := by
  have hc : Char.ofNat c.val.toNat = c := Char.ofNat_toNat c
  have hv : c.val.toNat < 0xd800 ∨ 0xdfff < c.val.toNat ∧ c.val.toNat < 0x110000 := c.valid
  unfold String.utf8EncodeChar
  generalize c.val.toNat = v at hc hv
  subst hc
  simp only
  -- One to four bytes, as the encoder splits them off.
  split
  case isTrue => rw [List.singleton_append, decodeFrom_one (by omega)]
  case isFalse =>
  split
  case isTrue =>
    have hb : v / 64 % 32 * 64 + v % 64 = v := by omega
    rw [List.cons_append, List.singleton_append, decodeFrom_two (by omega) (by omega),
      decodeFrom_last (low_le v) (le_high v), hb]
  case isFalse =>
  split
  case isTrue =>
    have hb : (v / 4096 % 16 * 64 + v / 64 % 64) * 64 + v % 64 = v := by omega
    rw [List.cons_append, List.cons_append, List.singleton_append, decodeFrom_three (by omega),
      decodeFrom_more, decodeFrom_last (low_le v) (le_high v), hb]
    case hl =>
      split
      · change 0xa0 ≤ _
        omega
      · exact low_le _
    case hh =>
      split
      · change _ ≤ 0x9f
        omega
      · exact le_high _
  case isFalse =>
    have hb : ((v / 262144 % 8 * 64 + v / 4096 % 64) * 64 + v / 64 % 64) * 64 + v % 64 = v := by
      omega
    rw [List.cons_append, List.cons_append, List.cons_append, List.singleton_append,
      decodeFrom_four (by omega), decodeFrom_more, decodeFrom_more (low_le _) (le_high _),
      decodeFrom_last (low_le v) (le_high v), hb]
    case hl =>
      split
      · change 0x90 ≤ _
        omega
      · exact low_le _
    case hh =>
      split
      · change _ ≤ 0x8f
        omega
      · exact le_high _

theorem decodeLossy_encode (s : String) : decodeLossy (encode s) = s := by
  have h (cs : List Char) : decodeFrom none (cs.flatMap String.utf8EncodeChar) = cs := by
    induction cs with
    | nil => rfl
    | cons c cs ih => rw [List.flatMap_cons, decodeFrom_utf8EncodeChar, ih]
  rw [decodeLossy, encode, h, String.ofList_toList]

theorem length_encode (s : String) : (encode s).length = s.utf8ByteSize := by
  rw [String.utf8ByteSize, ← String.utf8Encode_toList, List.utf8Encode, List.size_toByteArray,
    encode]

theorem eq_of_zero_mem {c : Char} (h : 0 ∈ String.utf8EncodeChar c) : c = '\x00' := by
  suffices hv : c.val.toNat = 0 from Char.toNat_inj.mp hv
  unfold String.utf8EncodeChar at h
  generalize c.val.toNat = v at h
  simp only at h
  split at h
  case isTrue =>
    simp [← UInt8.toNat_inj] at h
    omega
  case isFalse =>
  split at h
  case isTrue =>
    simp [← UInt8.toNat_inj] at h
    omega
  case isFalse =>
  split at h <;> simp [← UInt8.toNat_inj] at h <;> omega

theorem zero_not_mem_encode {s : String} (h : '\x00' ∉ s.toList) : 0 ∉ encode s := by
  intro hz
  have ⟨c, hc, hz⟩ := List.mem_flatMap.mp hz
  exact h (eq_of_zero_mem hz ▸ hc)

end TarGuard.Utf8
