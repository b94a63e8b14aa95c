namespace TarGuard.Gzip

structure Bits where
  bytes : List UInt8
  used : Nat
  used_lt : used < 8

namespace Bits

def ofBytes (bytes : List UInt8) : Bits where
  bytes := bytes
  used := 0
  used_lt := by decide

def left (s : Bits) : Nat :=
  8 * s.bytes.length - s.used

@[simp]
theorem left_ofBytes (bytes : List UInt8) : (ofBytes bytes).left = 8 * bytes.length := rfl

def next? (s : Bits) : Option (Bool × Bits) :=
  match s.bytes with
  | [] => none
  | b :: rest =>
    let bit := b.toNat.testBit s.used
    if h : s.used + 1 < 8 then some (bit, ⟨s.bytes, s.used + 1, h⟩)
    else some (bit, ofBytes rest)

theorem left_of_next? {s t : Bits} {bit : Bool} (h : s.next? = some (bit, t)) :
    t.left < s.left := by
  have := s.used_lt
  unfold next? at h
  split at h
  case h_1 => cases h
  case h_2 b rest hb =>
    have hl : s.left = 8 * rest.length + 8 - s.used := by
      simp only [left, hb, List.length_cons]
      omega
    split at h <;> cases h
    · simp only [left, hb, List.length_cons]
      omega
    · rw [left_ofBytes]
      omega

def number? : Nat → Bits → Option (Nat × Bits)
  | 0, s => some (0, s)
  | n + 1, s => do
    let (bit, s) ← s.next?
    let (high, s) ← number? n s
    return (2 * high + bit.toNat, s)

theorem left_of_number? {n v : Nat} {s t : Bits} (h : s.number? n = some (v, t)) :
    t.left ≤ s.left := by
  induction n generalizing s v with
  | zero => cases h; exact Nat.le_refl _
  | succ n ih =>
    simp only [number?, Option.bind_eq_bind, Option.bind_eq_some_iff] at h
    obtain ⟨⟨bit, u⟩, hu, ⟨high, w⟩, hw, h⟩ := h
    cases h
    exact Nat.le_trans (ih hw) (Nat.le_of_lt (left_of_next? hu))

def rest (s : Bits) : List UInt8 :=
  if s.used = 0 then s.bytes else s.bytes.drop 1

theorem length_rest (s : Bits) : 8 * s.rest.length ≤ s.left := by
  have := s.used_lt
  simp only [rest, left]
  split <;> simp <;> omega

end Bits
end TarGuard.Gzip
