import TarGuard.Proofs.Cursor

namespace TarGuard.Input

-- A stream that can be read piece by piece holds these bytes and no others, and then it ends.
structure Supplies (s : Input) (bytes : List UInt8) (ending : Ending) : Prop where
  joints    : s.joints = []
  remaining : s.remaining = bytes
  ending    : s.ending = ending

theorem readBlock_of_gather {s t : Input} {b : Block}
    (h : s.gather 512 512 = (b.bytes, .filled, t)) : readBlock s = .ok (some b) t := by
  cases b
  unfold readBlock
  split <;> cases h.symm.trans ‹_›
  rfl

theorem readRecord_of_readBlock {s t : Input} {o : Option Block} (h : readBlock s = .ok o t) :
    readRecord s = .ok (o.filter fun b => !isZero b.bytes) t := by
  rw [readRecord, bind_of_ok h]
  rfl

namespace Supplies

variable {s : Input} {bytes rest : List UInt8} {ending : Ending} {b : Block} {n : Nat}

theorem gather (h : s.Supplies (bytes ++ rest) ending) {most : Nat} (hm : 0 < most)
    (hn : bytes.length = n) :
    ∃ t, s.gather most n = (bytes, .filled, t) ∧ t.Supplies rest ending := by
  have ⟨schedule, hg⟩ := gather_eq h.joints hm n
  have hl : n ≤ (bytes ++ rest).length := by
    rw [List.length_append]
    omega
  rw [stopAt, h.remaining, List.take_left' hn, if_pos hl] at hg
  refine ⟨_, hg, h.joints, ?_, h.ending⟩
  simp only [after, h.remaining, List.drop_left' hn]

theorem gather_short (h : s.Supplies bytes .finished) {most : Nat} (hm : 0 < most)
    (hn : bytes.length < n) : ∃ t, s.gather most n = (bytes, .ended, t) := by
  have ⟨schedule, hg⟩ := gather_eq h.joints hm n
  rw [stopAt, h.remaining, h.ending, List.take_of_length_le (Nat.le_of_lt hn),
    if_neg (by omega)] at hg
  exact ⟨_, hg⟩

theorem readBlock (h : s.Supplies (b.bytes ++ rest) ending) :
    ∃ t, readBlock s = .ok (some b) t ∧ t.Supplies rest ending := by
  have ⟨t, hg, ht⟩ := h.gather (by decide : 0 < 512) b.size_eq
  exact ⟨t, readBlock_of_gather hg, ht⟩

theorem readRecord (h : s.Supplies (b.bytes ++ rest) ending) (hz : ¬ isZero b.bytes) :
    ∃ t, Input.readRecord s = .ok (some b) t ∧ t.Supplies rest ending := by
  have ⟨t, hb, ht⟩ := h.readBlock
  exact ⟨t, by simp [readRecord_of_readBlock hb, hz], ht⟩

theorem readRecord_zero (h : s.Supplies (b.bytes ++ rest) ending) (hz : isZero b.bytes) :
    ∃ t, Input.readRecord s = .ok none t := by
  have ⟨t, hb, _⟩ := h.readBlock
  exact ⟨t, by simp [readRecord_of_readBlock hb, hz]⟩

theorem readRecord_nil (h : s.Supplies [] .finished) : ∃ t, Input.readRecord s = .ok none t := by
  have ⟨t, hg⟩ := h.gather_short (by decide : 0 < 512) (by decide : 0 < 512)
  have hb : Input.readBlock s = .ok none t := by
    unfold Input.readBlock
    split <;> cases hg.symm.trans ‹_›
    rfl
  exact ⟨t, readRecord_of_readBlock hb⟩

theorem readRecord_short (h : s.Supplies bytes .finished) (hne : bytes ≠ [])
    (hlt : bytes.length < 512) : ∃ t, Input.readRecord s = .error .invalidHeader t := by
  obtain ⟨b, bs, rfl⟩ := List.exists_cons_of_ne_nil hne
  have ⟨t, hg⟩ := h.gather_short (by decide : 0 < 512) hlt
  have hb : Input.readBlock s = .error .invalidHeader t := by
    unfold Input.readBlock
    split <;> cases hg.symm.trans ‹_›
    rfl
  exact ⟨t, by rw [Input.readRecord, bind_of_error hb]⟩

theorem readChunk (h : s.Supplies (bytes ++ rest) ending) (hl : bytes.length = n) (hn : 0 < n) :
    ∃ t, Input.readChunk n s = .ok bytes t ∧ t.Supplies rest ending := by
  have ⟨t, hg, ht⟩ := h.gather hn hl
  refine ⟨t, ?_, ht⟩
  rw [Input.readChunk, hg]

theorem skip (h : s.Supplies (bytes ++ rest) ending) (hl : bytes.length = n) :
    ∃ t, Input.skip n s = .ok () t ∧ t.Supplies rest ending := by
  have ⟨t, hg, ht⟩ := h.gather (by decide : 0 < skipRequest) hl
  refine ⟨t, ?_, ht⟩
  rw [Input.skip, hg]

theorem skipPayload {h : Header} {payload pad : List UInt8}
    (hs : s.Supplies (payload ++ pad ++ rest) ending)
    (hn : h.paddedSize = .ok (h.size.toNat + (padding h.size).toNat))
    (hl : payload.length = h.size.toNat) (hp : pad.length = (padding h.size).toNat) :
    ∃ t, Input.skipPayload h s = .ok () t ∧ t.Supplies rest ending := by
  rw [Input.skipPayload, hn]
  exact hs.skip (by rw [List.length_append, hl, hp])

end Supplies
end TarGuard.Input
