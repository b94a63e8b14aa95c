import Mathlib.Algebra.Ring.Nat
import TarGuard.Proofs.Records

namespace TarGuard

namespace Limits

variable {l : Limits} {seen used size : UInt64}

structure Allows (l : Limits) (seen used size : UInt64) : Prop where
  files     : seen ≤ l.files
  fileSize  : size ≤ l.fileSize
  totalSize : used ≤ l.totalSize → used.toNat + size.toNat ≤ l.totalSize.toNat

theorem allows_of_check (h : l.check seen used size = .ok ()) : l.Allows seen used size := by
  unfold check at h
  split at h
  case isTrue => cases h
  case isFalse hf =>
  split at h
  case isTrue => cases h
  case isFalse hs =>
  split at h
  case isTrue => cases h
  case isFalse hl =>
    refine ⟨UInt64.not_lt.mp hf, UInt64.not_lt.mp hs, fun hu => ?_⟩
    rw [left, if_pos hu, gt_iff_lt, UInt64.not_lt, UInt64.le_iff_toNat_le,
      UInt64.toNat_sub_of_le _ _ hu] at hl
    rw [UInt64.le_iff_toNat_le] at hu
    omega

namespace Allows

theorem toNat_add (h : l.Allows seen used size) (hu : used ≤ l.totalSize) :
    (used + size).toNat = used.toNat + size.toNat := by
  have := h.totalSize hu
  have := l.totalSize.toNat_lt
  rw [UInt64.toNat_add, Nat.mod_eq_of_lt (by omega)]

theorem add_le (h : l.Allows seen used size) (hu : used ≤ l.totalSize) :
    used + size ≤ l.totalSize := by
  rw [UInt64.le_iff_toNat_le, h.toNat_add hu]
  exact h.totalSize hu

end Allows

end Limits

theorem toNat_add_one {seen files : UInt64} (hf : files.toNat + 1 < UInt64.size)
    (hs : seen ≤ files) : (seen + 1).toNat = seen.toNat + 1 := by
  rw [UInt64.le_iff_toNat_le] at hs
  rw [UInt64.toNat_add, UInt64.toNat_one, Nat.mod_eq_of_lt (by rw [UInt64.size] at hf; omega)]

namespace Extractor

variable {x : Extractor} {s t : Session} {base : Location} {root : List String} {e : Entry}
  {es : List Entry}

namespace Completes

theorem allows (h : x.Completes root base e s t) :
    x.limits.Allows (s.seen + 1) s.summary.bytesExtracted e.header.size :=
  Limits.allows_of_check h.checked

theorem bytesExtracted (h : x.Completes root base e s t) :
    t.summary.bytesExtracted = s.summary.bytesExtracted + e.header.size := by
  rw [h.summary]
  unfold Summary.with
  cases e.header.kind <;> rfl

end Completes

namespace Completed

theorem bytesExtracted (h : x.Completed root base es s t)
    (hs : s.summary.bytesExtracted ≤ x.limits.totalSize) :
    t.summary.bytesExtracted ≤ x.limits.totalSize ∧
      t.summary.bytesExtracted.toNat =
        s.summary.bytesExtracted.toNat + (es.map (·.header.size.toNat)).sum := by
  induction h with
  | nil => exact ⟨hs, rfl⟩
  | cons hc _ ih =>
    have ⟨hle, heq⟩ := ih (hc.bytesExtracted ▸ hc.allows.add_le hs)
    refine ⟨hle, ?_⟩
    rw [heq, hc.bytesExtracted, hc.allows.toNat_add hs, List.map_cons, List.sum_cons]
    omega

theorem seen (h : x.Completed root base es s t) (hf : x.limits.files.toNat + 1 < UInt64.size)
    (hs : s.seen ≤ x.limits.files) :
    t.seen ≤ x.limits.files ∧ t.seen.toNat = s.seen.toNat + es.length := by
  induction h with
  | nil => exact ⟨hs, rfl⟩
  | @cons s t u e es hc _ ih =>
    have ⟨hle, heq⟩ := ih (hc.seen ▸ hc.allows.files)
    refine ⟨hle, ?_⟩
    rw [heq, hc.seen, toNat_add_one hf hs, List.length_cons]
    omega

theorem seen_of_start (h : x.Completed root base es s t)
    (hf : x.limits.files.toNat + 1 < UInt64.size) (hs : s.seen = 0) :
    t.seen ≤ x.limits.files ∧ t.seen.toNat = es.length := by
  have ⟨hle, heq⟩ := h.seen hf (hs ▸ UInt64.zero_le)
  rw [hs, UInt64.toNat_zero, Nat.zero_add] at heq
  exact ⟨hle, heq⟩

theorem bytes_of_start (h : x.Completed root base es s t) (hs : s.summary = {}) :
    t.summary.bytesExtracted ≤ x.limits.totalSize ∧
      t.summary.bytesExtracted.toNat = (es.map (·.header.size.toNat)).sum := by
  have ⟨hle, heq⟩ := h.bytesExtracted (hs ▸ UInt64.zero_le)
  rw [hs, UInt64.toNat_zero, Nat.zero_add] at heq
  exact ⟨hle, heq⟩

end Completed

end Extractor
end TarGuard
