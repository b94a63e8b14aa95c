import TarGuard.Input.Record
import TarGuard.Proofs.Ends

namespace TarGuard.Input

variable {s t u : Input} {bytes more : List UInt8} {wanted most : Nat}

theorem ending_read (s : Input) (wanted : Nat) : (s.read wanted).2.ending = s.ending := by
  unfold read
  split
  · rfl
  · split <;> rfl

theorem ending_gather (most : Nat) (s : Input) (wanted : Nat) :
    (s.gather most wanted).2.2.ending = s.ending := by
  fun_induction gather most s wanted with
  | case1 => rfl
  | case2 s wanted hw t h ih =>
    have ht := s.ending_read (min wanted most)
    rw [h] at ht
    exact ih.trans ht
  | case3 s wanted hw t h | case4 s wanted hw t h =>
    have ht := s.ending_read (min wanted most)
    rwa [h] at ht
  | case5 s wanted hw b bs t h more stop last hg ih =>
    have ht := s.ending_read (min wanted most)
    rw [h] at ht
    rw [hg] at ih
    exact ih.trans ht

theorem delivered_read (s : Input) (wanted : Nat) :
    match s.read wanted with
    | (.bytes bs, t) => t.delivered = s.delivered + bs.length
    | (_, t) => t.delivered = s.delivered := by
  unfold read
  by_cases hi : s.delivered ∈ s.schedule.interruptions
  · simp [hi]
  · by_cases hb : s.remaining = [] ∧ s.ending = .broken
    · simp [hi, hb]
    · simp [hi, hb]

theorem delivered_gather (most : Nat) (s : Input) (wanted : Nat) :
    (s.gather most wanted).2.2.delivered = s.delivered + (s.gather most wanted).1.length := by
  fun_induction gather most s wanted with
  | case1 => rfl
  | case2 s wanted hw t h ih =>
    have hd := s.delivered_read (min wanted most)
    rw [h] at hd
    rw [ih, hd]
  | case3 s wanted hw t h | case4 s wanted hw t h =>
    have hd := s.delivered_read (min wanted most)
    rwa [h] at hd
  | case5 s wanted hw b bs t h more stop last hg ih =>
    have hd := s.delivered_read (min wanted most)
    rw [h] at hd
    rw [hg] at ih
    simp only at hd ih ⊢
    rw [ih, hd, List.length_append, Nat.add_assoc]

structure Delivers (s : Input) (bytes : List UInt8) (t : Input) : Prop where
  joints    : t.joints = s.joints
  ending    : t.ending = s.ending
  delivered : t.delivered = s.delivered + bytes.length
  remaining : s.joints = [] → s.remaining = bytes ++ t.remaining

namespace Delivers

theorem nil (s : Input) : Delivers s [] s :=
  ⟨rfl, rfl, rfl, fun _ => rfl⟩

theorem append (h : Delivers s bytes t) (h' : Delivers t more u) :
    Delivers s (bytes ++ more) u where
  joints := h'.joints.trans h.joints
  ending := h'.ending.trans h.ending
  delivered := by rw [h'.delivered, h.delivered, List.length_append, Nat.add_assoc]
  remaining hj := by
    rw [h.remaining hj, h'.remaining (h.joints.trans hj), List.append_assoc]

theorem gather (most : Nat) (s : Input) (wanted : Nat) :
    Delivers s (s.gather most wanted).1 (s.gather most wanted).2.2 :=
  ⟨joints_gather most s wanted, ending_gather most s wanted, delivered_gather most s wanted,
    remaining_gather⟩

theorem of_gather {stop : Stop} (h : s.gather most wanted = (bytes, stop, t)) :
    Delivers s bytes t := by
  have := gather most s wanted
  rwa [h] at this

end Delivers

theorem pos_of_distance? {positions : List Nat} {n : Nat} (h : s.distance? positions = some n) :
    0 < n := by
  have hm := List.min?_mem h
  simp only [List.mem_map, List.mem_filter] at hm
  have ⟨p, ⟨_, hp⟩, hn⟩ := hm
  simp only [decide_eq_true_eq] at hp
  omega

theorem pos_getD_distance? {positions : List Nat} (hw : 0 < wanted) :
    0 < (s.distance? positions).getD wanted := by
  cases hd : s.distance? positions with
  | none => exact hw
  | some n => exact pos_of_distance? hd

theorem pos_pieceLength (hw : 0 < wanted) : 0 < s.pieceLength wanted := by
  have hg : 0 < s.gap.getD wanted := pos_getD_distance? hw
  have hj : 0 < s.toJoint.getD wanted := by
    unfold toJoint
    split
    · exact hw
    · exact pos_getD_distance? hw
  have hc : 0 < s.toCut.getD wanted := pos_getD_distance? hw
  have := s.schedule.most_pos
  simp only [pieceLength]
  omega

theorem ended_of_read_nil (hw : 0 < wanted) (h : s.read wanted = (.bytes [], t)) :
    t.remaining = [] ∧ t.ending = .finished := by
  have hp := s.pos_pieceLength hw
  simp only [read, List.splitAt_eq] at h
  split at h
  case isTrue => cases h
  case isFalse =>
    split at h
    case isTrue => cases h
    case isFalse hb =>
      simp only [Prod.mk.injEq, Reading.bytes.injEq, List.take_eq_nil_iff] at h
      obtain ⟨hs, ht⟩ := h
      have hr : s.remaining = [] := hs.resolve_left (by omega)
      subst ht
      cases he : s.ending with
      | broken => exact absurd ⟨hr, he⟩ hb
      | finished => exact ⟨by simp [hr], rfl⟩

theorem ended_of_gather (hm : 0 < most) (h : s.gather most wanted = (bytes, .ended, t)) :
    t.remaining = [] ∧ t.ending = .finished := by
  fun_induction gather most s wanted generalizing bytes t
  case case1 => cases h
  case case2 ih => exact ih h
  case case3 => cases h
  case case4 s wanted hw u hr =>
    cases h
    exact ended_of_read_nil (by omega) hr
  case case5 ih =>
    cases h
    exact ih ‹_›

theorem readChunk_ends (n : Nat) (s : Input) :
    Ends (readChunk n) s (fun bytes t => bytes.length = n ∧ Delivers s bytes t)
      (fun e _ => e = .readFailed) := by
  unfold Ends readChunk
  split
  case h_1 h =>
    split at h <;> cases h
    exact ⟨length_gather ‹_›, .of_gather ‹_›⟩
  case h_2 h =>
    split at h <;> cases h
    rfl

theorem skip_ends (n : Nat) (s : Input) :
    Ends (skip n) s (fun _ t => ∃ bytes, bytes.length = n ∧ Delivers s bytes t)
      (fun e _ => e = .readFailed) := by
  unfold Ends skip
  split
  case h_1 h =>
    split at h <;> cases h
    exact ⟨_, length_gather ‹_›, .of_gather ‹_›⟩
  case h_2 h =>
    split at h <;> cases h
    rfl

theorem readBlock_ends (s : Input) :
    Ends readBlock s
      (fun o t => match o with
        | some b => Delivers s b.bytes t
        | none => s.joints = [] → s.remaining = [] ∧ s.ending = .finished)
      (fun e _ => e = .readFailed ∨ e = .invalidHeader) := by
  unfold Ends readBlock
  split
  case h_1 h =>
    split at h <;> cases h
    · exact .of_gather ‹_›
    · intro hj
      have hg : s.gather 512 512 = ([], .ended, _) := ‹_›
      have hd := Delivers.of_gather hg
      have ⟨hr, he⟩ := ended_of_gather (by decide) hg
      exact ⟨(hd.remaining hj).trans hr, hd.ending.symm.trans he⟩
  case h_2 h =>
    split at h <;> cases h
    · exact .inr rfl
    · exact .inl rfl

def AtEnd (s : Input) : Prop :=
  s.remaining = [] ∧ s.ending = .finished ∨ ∃ b : Block, isZero b.bytes ∧ b.bytes <+: s.remaining

theorem readRecord_ends (s : Input) :
    Ends readRecord s
      (fun o t => match o with
        | some b => ¬ isZero b.bytes ∧ Delivers s b.bytes t
        | none => s.joints = [] → s.AtEnd)
      (fun e _ => e = .readFailed ∨ e = .invalidHeader) := by
  refine (readBlock_ends s).bind (fun _ _ h => h) fun o t h => ?_
  apply Ends.pure
  cases o with
  | none => exact fun hj => .inl (h hj)
  | some b =>
    by_cases hz : isZero b.bytes
    case neg => simpa [Option.filter, hz] using h
    case pos =>
      simp only [Option.filter, hz]
      exact fun hj => .inr ⟨b, hz, _, (h.remaining hj).symm⟩

end TarGuard.Input
