import TarGuard.Proofs.Reading

namespace TarGuard.Input

variable {s t : Input} {most wanted m n : Nat}

theorem length_gather_le (most : Nat) (s : Input) (wanted : Nat) :
    (s.gather most wanted).1.length ≤ wanted := by
  fun_induction gather most s wanted with
  | case1 | case3 | case4 => exact Nat.zero_le _
  | case2 s wanted hw t h ih => exact ih
  | case5 s wanted hw b bs t h more stop last hg ih =>
    have hl := length_of_read_bytes h
    rw [hg] at ih
    simp only [List.length_append] at ih ⊢
    omega

def after (s : Input) (n : Nat) : Input :=
  { s with
    remaining := s.remaining.drop n
    delivered := s.delivered + min n s.remaining.length }

def stopAt (s : Input) (n : Nat) : Stop :=
  if n ≤ s.remaining.length then .filled
  else match s.ending with
    | .finished => .ended
    | .broken => .broken

theorem after_of_remaining (h : s.remaining = []) (n : Nat) : s.after n = s := by
  simp [after, h, Input.ext_iff]

theorem after_after (s : Input) (m n : Nat) : (s.after m).after n = s.after (m + n) := by
  simp only [after, List.drop_drop, List.length_drop, Input.ext_iff, true_and, and_true]
  omega

theorem stopAt_after (hn : m ≤ n) (hm : m ≤ s.remaining.length) :
    (s.after m).stopAt (n - m) = s.stopAt n := by
  have h : n - m ≤ s.remaining.length - m ↔ n ≤ s.remaining.length := by omega
  simp [stopAt, after, h]

inductive Reads (s : Input) (wanted : Nat) : Reading × Input → Prop
  | interrupted {schedule : Schedule} :
    schedule.interruptions.length < s.schedule.interruptions.length →
    Reads s wanted (.interrupted, { s with schedule := schedule })
  | broken : s.remaining = [] → s.ending = .broken → Reads s wanted (.broken, s)
  | ended : s.remaining = [] → s.ending = .finished → Reads s wanted (.bytes [], s)
  | bytes {b bs rest} : s.remaining = (b :: bs) ++ rest → (b :: bs).length ≤ wanted →
    Reads s wanted (.bytes (b :: bs), s.after (b :: bs).length)

theorem read_reads (hj : s.joints = []) (hw : 0 < wanted) : s.Reads wanted (s.read wanted) := by
  by_cases hi : s.delivered ∈ s.schedule.interruptions
  case pos =>
    obtain ⟨schedule, hread⟩ :
        ∃ schedule, s.read wanted = (.interrupted, { s with schedule := schedule }) :=
      ⟨_, by rw [read, if_pos hi]⟩
    rw [hread]
    exact .interrupted (interruptions_of_read_interrupted hread)
  case neg =>
    have hg (n : Nat) : s.GoesOnAt n := .inl hj
    cases hr : s.remaining with
    | nil =>
      cases he : s.ending with
      | broken =>
        rw [read, if_neg hi, if_pos ⟨hr, he⟩]
        exact .broken hr he
      | finished =>
        have hread : s.read wanted = (.bytes [], s) := by
          simp [read, hi, hr, he, hg, Input.ext_iff]
        rw [hread]
        exact .ended hr he
    | cons b bs =>
      have hp := s.pos_pieceLength hw
      obtain ⟨k, hk⟩ : ∃ k, s.pieceLength wanted = k + 1 := Nat.exists_eq_add_one.mpr hp
      have hread : s.read wanted =
          (.bytes (b :: bs.take k), s.after (b :: bs.take k).length) := by
        simp [read, hi, hr, hg, after, hk]
      have hle : s.pieceLength wanted ≤ wanted := by
        simp only [pieceLength]
        omega
      have hrest : s.remaining = (b :: bs.take k) ++ bs.drop k := by simp [hr]
      rw [hread]
      refine .bytes hrest ?_
      simp only [List.length_cons, List.length_take]
      omega

theorem reads_of_read {most n : Nat} {r : Reading × Input} (hj : s.joints = []) (hm : 0 < most)
    (hn : n ≠ 0) (h : s.read (min n most) = r) : s.Reads (min n most) r :=
  h ▸ s.read_reads hj (by omega)

-- What is gathered depends on the bytes alone. Only the schedule remembers how they came.
theorem gather_eq (hj : s.joints = []) (hm : 0 < most) (n : Nat) :
    ∃ schedule, s.gather most n =
      (s.remaining.take n, s.stopAt n, { s.after n with schedule := schedule }) := by
  -- One case for each end of a read. Only the schedule is used up by an interruption.
  fun_induction gather most s n with
  | case1 s => exact ⟨s.schedule, by simp [stopAt, after]⟩
  | case2 s n hn t h ih =>
    cases reads_of_read hj hm hn h with
    | interrupted => exact ih hj
  | case3 s n hn t h =>
    cases reads_of_read hj hm hn h with
    | broken he hb =>
      refine ⟨s.schedule, ?_⟩
      rw [after_of_remaining he]
      simp [he, stopAt, hb, hn, Input.ext_iff]
  | case4 s n hn t h =>
    cases reads_of_read hj hm hn h with
    | ended he hf =>
      refine ⟨s.schedule, ?_⟩
      rw [after_of_remaining he]
      simp [he, stopAt, hf, hn, Input.ext_iff]
  | case5 s n hn b bs t h more stop last hg ih =>
    cases reads_of_read hj hm hn h with
    | @bytes _ _ rest hs hl =>
      obtain ⟨schedule, hi⟩ := ih hj
      rw [hg] at hi
      cases hi
      have hn : (b :: bs).length ≤ n := by omega
      have ht : b :: bs ++ (s.after (b :: bs).length).remaining.take (n - (b :: bs).length) =
          s.remaining.take n := by
        rw [after, hs, List.drop_left, List.take_append, List.take_of_length_le hn]
      refine ⟨schedule, ?_⟩
      rw [ht, stopAt_after hn (by simp [hs]), after_after, Nat.add_sub_cancel' hn]

end TarGuard.Input
