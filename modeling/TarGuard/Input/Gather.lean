import TarGuard.Input.Basic

namespace TarGuard.Input

theorem interruptions_of_read_interrupted {s t : Input} {wanted : Nat}
    (h : s.read wanted = (.interrupted, t)) :
    t.schedule.interruptions.length < s.schedule.interruptions.length := by
  unfold read at h
  split at h
  case isTrue hm =>
    cases h
    have := List.length_erase_of_mem hm
    have := List.length_pos_of_mem hm
    simp only
    omega
  case isFalse => split at h <;> cases h

theorem schedule_of_read_bytes {s t : Input} {wanted : Nat} {bs : List UInt8}
    (h : s.read wanted = (.bytes bs, t)) : t.schedule = s.schedule := by
  unfold read at h
  split at h
  case isTrue => cases h
  case isFalse => split at h <;> cases h; rfl

theorem joints_read (s : Input) (wanted : Nat) : (s.read wanted).2.joints = s.joints := by
  unfold read
  split
  · rfl
  · split <;> rfl

theorem length_of_read_bytes {s t : Input} {wanted : Nat} {bs : List UInt8}
    (h : s.read wanted = (.bytes bs, t)) : bs.length ≤ wanted := by
  simp only [read, List.splitAt_eq] at h
  split at h
  case isTrue => cases h
  case isFalse =>
    split at h <;> cases h
    simp only [List.length_take, pieceLength]
    omega

theorem sublist_read (s : Input) (wanted : Nat) :
    match s.read wanted with
    | (.bytes bs, t) => (bs ++ t.remaining).Sublist s.remaining
    | (_, t) => t.remaining = s.remaining := by
  unfold read
  by_cases hi : s.delivered ∈ s.schedule.interruptions
  · simp [hi]
  · by_cases hb : s.remaining = [] ∧ s.ending = .broken
    · simp [hi, hb]
    · simp only [hi, hb, if_false, List.splitAt_eq]
      split
      · simp
      · simp [List.take_sublist]

theorem remaining_of_read_bytes {s t : Input} {wanted : Nat} {bs : List UInt8}
    (h : s.read wanted = (.bytes bs, t)) (hj : s.joints = []) :
    s.remaining = bs ++ t.remaining := by
  simp only [read, List.splitAt_eq] at h
  split at h
  case isTrue => cases h
  case isFalse =>
    split at h <;> cases h
    simp [GoesOnAt, hj]

theorem remaining_of_read_interrupted {s t : Input} {wanted : Nat}
    (h : s.read wanted = (.interrupted, t)) : t.remaining = s.remaining := by
  have := s.sublist_read wanted
  rwa [h] at this

theorem lt_of_read_interrupted {s t : Input} {wanted : Nat}
    (h : s.read wanted = (.interrupted, t)) :
    t.remaining.length + t.schedule.interruptions.length <
      s.remaining.length + s.schedule.interruptions.length := by
  have := interruptions_of_read_interrupted h
  rw [remaining_of_read_interrupted h]
  omega

theorem lt_of_read_bytes {s t : Input} {wanted : Nat} {b : UInt8} {bs : List UInt8}
    (h : s.read wanted = (.bytes (b :: bs), t)) :
    t.remaining.length + t.schedule.interruptions.length <
      s.remaining.length + s.schedule.interruptions.length := by
  have hl := s.sublist_read wanted
  rw [h] at hl
  have hl := hl.length_le
  have hs := schedule_of_read_bytes h
  simp only [List.cons_append, List.length_cons, List.length_append, hs] at *
  omega

inductive Stop
  | filled
  | ended
  | broken
  deriving DecidableEq

-- Reads until `wanted` bytes are there or no more come, and asks for at most `most` at once.
-- Interrupted reads are repeated. What was read before the stream ended or broke off is gone from
-- it.
def gather (most : Nat) (s : Input) (wanted : Nat) : List UInt8 × Stop × Input :=
  if wanted = 0 then
    ([], .filled, s)
  else
    match _h : s.read (min wanted most) with
    | (.interrupted, t) => t.gather most wanted
    | (.broken, t) => ([], .broken, t)
    | (.bytes [], t) => ([], .ended, t)
    | (.bytes (b :: bs), t) =>
      let (more, stop, last) := t.gather most (wanted - (b :: bs).length)
      (b :: bs ++ more, stop, last)
termination_by wanted + s.schedule.interruptions.length
decreasing_by
  · have := interruptions_of_read_interrupted _h
    omega
  · have := schedule_of_read_bytes _h
    simp [this]
    omega

theorem sublist_gather (most : Nat) (s : Input) (wanted : Nat) :
    ((s.gather most wanted).1 ++ (s.gather most wanted).2.2.remaining).Sublist s.remaining := by
  fun_induction gather most s wanted
  case case1 => simp
  case case2 s wanted hw t h ih => rwa [remaining_of_read_interrupted h] at ih
  case case3 s wanted hw t h =>
    have := s.sublist_read (min wanted most)
    simp only [h] at this
    simp [this]
  case case4 s wanted hw t h =>
    have := s.sublist_read (min wanted most)
    simpa [h] using this
  case case5 s wanted hw b bs t h more stop last hg ih =>
    have := s.sublist_read (min wanted most)
    simp only [h] at this
    rw [hg] at ih
    rw [List.append_assoc]
    exact (ih.append_left _).trans this

theorem length_gather {s t : Input} {most wanted : Nat} {bs : List UInt8}
    (h : s.gather most wanted = (bs, .filled, t)) : bs.length = wanted := by
  fun_induction gather most s wanted generalizing bs t
  case case1 => cases h; rfl
  case case2 ih => exact ih h
  case case3 => cases h
  case case4 => cases h
  case case5 s wanted hw b cs u hr more stop last hg ih =>
    cases h
    have hm := ih hg
    have := length_of_read_bytes hr
    simp only [List.length_cons, List.length_append] at *
    omega

theorem remaining_gather {s : Input} {most wanted : Nat} (hj : s.joints = []) :
    s.remaining = (s.gather most wanted).1 ++ (s.gather most wanted).2.2.remaining := by
  fun_induction gather most s wanted
  case case1 => rfl
  case case2 s wanted hw t h ih =>
    have ht := s.joints_read (min wanted most)
    rw [h] at ht
    rw [← remaining_of_read_interrupted h]
    exact ih (ht.trans hj)
  case case3 s wanted hw t h =>
    have := s.sublist_read (min wanted most)
    simp only [h] at this
    simp [this]
  case case4 s wanted hw t h => exact remaining_of_read_bytes h hj
  case case5 s wanted hw b bs t h more stop last hg ih =>
    have ht := s.joints_read (min wanted most)
    rw [h] at ht
    rw [hg] at ih
    rw [remaining_of_read_bytes h hj, ih (ht.trans hj), List.append_assoc]

theorem joints_gather (most : Nat) (s : Input) (wanted : Nat) :
    (s.gather most wanted).2.2.joints = s.joints := by
  fun_induction gather most s wanted
  case case1 => rfl
  case case2 s wanted hw t h ih =>
    have ht := s.joints_read (min wanted most)
    rw [h] at ht
    exact ih.trans ht
  case case3 s wanted hw t h | case4 s wanted hw t h =>
    have ht := s.joints_read (min wanted most)
    rwa [h] at ht
  case case5 s wanted hw b bs t h more stop last hg ih =>
    have ht := s.joints_read (min wanted most)
    rw [h] at ht
    rw [hg] at ih
    exact ih.trans ht

end TarGuard.Input
