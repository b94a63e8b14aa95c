import TarGuard.Proofs.Decoding

namespace TarGuard

def Schedule.ShowsTwo (schedule : Schedule) (buffer : Nat) : Prop :=
  2 ≤ buffer ∧ 2 ≤ schedule.most ∧ 1 ∉ schedule.interruptions

instance (schedule : Schedule) : DecidablePred schedule.ShowsTwo :=
  fun _ => inferInstanceAs (Decidable (_ ∧ _))

namespace Input

def stream (bytes : List UInt8) (schedule : Schedule) : Input where
  remaining := bytes
  ending := .finished
  schedule := schedule

section FirstPiece

variable {s : Input} {wanted : Nat}

theorem pieceLength_erase :
    pieceLength { s with schedule := { s.schedule with
      interruptions := s.schedule.interruptions.erase s.delivered } } wanted =
    s.pieceLength wanted := by
  have hahead : (s.schedule.interruptions.erase s.delivered).filter (s.delivered < ·) =
      s.schedule.interruptions.filter (s.delivered < ·) := by
    rw [← List.erase_filter, List.erase_of_not_mem]
    simp
  simp only [pieceLength, gap, distance?, hahead]
  rfl

theorem read_of_finished (he : s.ending = .finished) (wanted : Nat) :
    match s.read wanted with
    | (.interrupted, t) =>
      (∃ schedule, t = { s with schedule := schedule }) ∧
        t.pieceLength wanted = s.pieceLength wanted
    | (.broken, _) => False
    | (.bytes bs, _) => bs = s.remaining.take (s.pieceLength wanted) := by
  unfold read
  by_cases hi : s.delivered ∈ s.schedule.interruptions
  · rw [if_pos hi]
    exact ⟨⟨_, rfl⟩, pieceLength_erase⟩
  · rw [if_neg hi, if_neg (by simp [he]), List.splitAt_eq]

theorem peek_of_finished (he : s.ending = .finished) (wanted : Nat) :
    ∃ schedule, s.peek wanted =
      .ok (s.remaining.take (s.pieceLength wanted), { s with schedule := schedule }) := by
  fun_induction peek s wanted with
  | case1 s t h ih =>
    have hread := read_of_finished he wanted
    rw [h] at hread
    obtain ⟨⟨schedule, rfl⟩, hp⟩ := hread
    rw [← hp]
    exact ih he
  | case2 s t h =>
    have hread := read_of_finished he wanted
    rw [h] at hread
    exact hread.elim
  | case3 s bytes t h =>
    have hread := read_of_finished he wanted
    rw [h] at hread
    exact ⟨s.schedule, by rw [hread]⟩

theorem two_le_distance_iff {positions : List Nat} (hw : 2 ≤ wanted) :
    2 ≤ (s.distance? positions).getD wanted ↔ s.delivered + 1 ∉ positions := by
  have hmem (n : Nat) : n ∈ (positions.filter (s.delivered < ·)).map (· - s.delivered) ↔
      0 < n ∧ s.delivered + n ∈ positions := by
    simp only [List.mem_map, List.mem_filter, decide_eq_true_eq]
    constructor
    case mp =>
      rintro ⟨p, ⟨hp, hlt⟩, rfl⟩
      rw [Nat.add_sub_cancel' (Nat.le_of_lt hlt)]
      exact ⟨Nat.sub_pos_of_lt hlt, hp⟩
    case mpr =>
      rintro ⟨hn, hp⟩
      exact ⟨_, ⟨hp, Nat.lt_add_of_pos_right hn⟩, Nat.add_sub_cancel_left _ _⟩
  cases hd : s.distance? positions with
  | none =>
    rw [distance?, List.min?_eq_none_iff] at hd
    refine iff_of_true hw fun hp => ?_
    simpa [hd] using (hmem 1).mpr ⟨Nat.one_pos, hp⟩
  | some n =>
    rw [distance?, List.min?_eq_some_iff] at hd
    obtain ⟨hn, hp⟩ := (hmem n).mp hd.1
    rw [Option.getD_some]
    constructor
    case mp =>
      intro hle hone
      have := hd.2 1 ((hmem 1).mpr ⟨Nat.one_pos, hone⟩)
      omega
    case mpr =>
      intro hone
      by_contra hlt
      have hn1 : n = 1 := by omega
      exact hone (hn1 ▸ hp)

theorem two_le_pieceLength_iff {bytes : List UInt8} {schedule : Schedule} :
    2 ≤ (stream bytes schedule).pieceLength wanted ↔ schedule.ShowsTwo wanted := by
  by_cases hw : 2 ≤ wanted
  case pos =>
    have hgap : 2 ≤ (stream bytes schedule).gap.getD wanted ↔ 1 ∉ schedule.interruptions :=
      two_le_distance_iff hw
    have hjoint : (stream bytes schedule).toJoint.getD wanted = wanted := rfl
    have hcut : (stream bytes schedule).toCut.getD wanted = wanted := rfl
    rw [pieceLength, hjoint, hcut, Nat.min_self, Nat.le_min, Nat.le_min, Nat.le_min, hgap,
      and_iff_left hw, and_assoc]
    rfl
  case neg =>
    refine iff_of_false (fun hle => hw ?_) fun h => hw h.1
    exact Nat.le_trans hle (Nat.le_trans (Nat.min_le_left _ _) (Nat.min_le_left _ _))

end FirstPiece

-- A stream is taken for compressed if it begins like that, and this is to be seen.
theorem detect_eq (decoder : Decoder) (bytes : List UInt8) (schedule : Schedule) (buffer : Nat) :
    ∃ schedule', (stream bytes schedule).detect buffer decoder =
      .ok (if Gzip.magic <+: bytes ∧ schedule.ShowsTwo buffer
        then decoder (stream bytes schedule') buffer else stream bytes schedule') := by
  obtain ⟨schedule', hp⟩ := peek_of_finished (s := stream bytes schedule) rfl buffer
  have hmagic : Gzip.magic.isPrefixOf
      (bytes.take ((stream bytes schedule).pieceLength buffer)) ↔
      Gzip.magic <+: bytes ∧ schedule.ShowsTwo buffer := by
    rw [List.isPrefixOf_iff_prefix, List.prefix_take_iff, ← two_le_pieceLength_iff]
    rfl
  have hp : (stream bytes schedule).peek buffer =
      .ok (bytes.take ((stream bytes schedule).pieceLength buffer), stream bytes schedule') := hp
  refine ⟨schedule', ?_⟩
  rw [detect, hp]
  simp only [bind, Except.bind, hmagic]
  rfl

inductive Call
  | block
  | chunk (n : Nat)
  | skip (n : Nat)

inductive Answer
  | block (b : Option Block)
  | chunk (bytes : List UInt8)
  | skipped

def Call.answer : Call → EStateM ExtractError Input Answer
  | .block => do return .block (← readBlock)
  | .chunk n => do return .chunk (← readChunk n)
  | .skip n => do
    Input.skip n
    return .skipped

def answers : List Call → Input → List (Except ExtractError Answer)
  | [], _ => []
  | call :: calls, s =>
    match call.answer s with
    | .ok a t => .ok a :: answers calls t
    | .error e _ => [.error e]

theorem Call.local_answer (call : Call) : Local Input.delivered AgreesUpTo call.answer := by
  cases call with
  | block => exact local_readBlock.bind fun _ => Local.pure _
  | chunk n =>
    have hchunk : Local Input.delivered AgreesUpTo (readChunk n) := by
      cases n with
      | zero =>
        have hnone : readChunk 0 = pure [] := by
          funext s
          rw [readChunk, Input.gather, if_pos rfl]
          rfl
        rw [hnone]
        exact Local.pure []
      | succ n => exact local_readChunk (Nat.succ_pos n)
    exact hchunk.bind fun _ => Local.pure _
  | skip n => exact (local_skip n).bind fun _ => Local.pure _

theorem answers_congr {s t : Input} (h : ∀ n, s.AgreesUpTo n t) (calls : List Call) :
    answers calls s = answers calls t := by
  induction calls generalizing s t with
  | nil => rfl
  | cons call calls ih =>
    cases hs : call.answer s with
    | ok a u =>
      have ⟨v, ht, hv⟩ := ok_of_agrees call.local_answer h hs
      simp only [answers, hs, ht, ih hv]
    | error e u =>
      have ⟨v, ht⟩ := error_of_agrees call.local_answer h hs
      simp only [answers, hs, ht]

-- Whether a stream that begins like a compressed one is taken for that depends on whether two bytes
-- come with the first piece. On nothing else of how they come does an answer depend.
theorem detect_of_schedules (decoder : Decoder) (bytes : List UInt8) :
    (∀ schedule buffer, ∃ schedule', (stream bytes schedule).detect buffer decoder =
      .ok (if Gzip.magic <+: bytes ∧ schedule.ShowsTwo buffer
        then decoder (stream bytes schedule') buffer else stream bytes schedule')) ∧
    ∀ content ending,
      (∀ s buffer, s.Supplies bytes .finished → decoder.Delivers s buffer content ending) →
      ∀ schedule schedule' buffer buffer',
        (Gzip.magic <+: bytes → (schedule.ShowsTwo buffer ↔ schedule'.ShowsTwo buffer')) →
        ∃ s t, (stream bytes schedule).detect buffer decoder = .ok s ∧
          (stream bytes schedule').detect buffer' decoder = .ok t ∧
          ∀ calls, answers calls s = answers calls t := by
  constructor
  case left => exact detect_eq decoder bytes
  case right =>
    intro content ending hd schedule schedule' buffer buffer' hboth
    obtain ⟨after, hs⟩ := detect_eq decoder bytes schedule buffer
    obtain ⟨after', ht⟩ := detect_eq decoder bytes schedule' buffer'
    refine ⟨_, _, hs, ht, answers_congr fun n => ?_⟩
    have hsupplies (schedule : Schedule) : (stream bytes schedule).Supplies bytes .finished :=
      ⟨rfl, rfl, rfl⟩
    by_cases hm : Gzip.magic <+: bytes ∧ schedule.ShowsTwo buffer
    case pos =>
      rw [if_pos hm, if_pos ⟨hm.1, (hboth hm.1).mp hm.2⟩]
      have hs := hd _ buffer (hsupplies after)
      have ht := hd _ buffer' (hsupplies after')
      exact .of_supplies hs.supplies ht.supplies (hs.delivered.trans ht.delivered.symm) n
    case neg =>
      rw [if_neg hm, if_neg fun h => hm ⟨h.1, (hboth h.1).mpr h.2⟩]
      exact .of_supplies (hsupplies after) (hsupplies after') rfl n

theorem detect_of_schedules_star :
    ∃ s t, (stream (Gzip.store [42]) ⟨2, [0, 0, 3], by decide⟩).detect 5 = .ok s ∧
      (stream (Gzip.store [42]) plainSchedule).detect bufferSize = .ok t ∧
      ∀ calls, answers calls s = answers calls t := by
  have ⟨_, hall⟩ := detect_of_schedules unpack (Gzip.store [42])
  exact hall [42] .finished (fun s buffer hs => Decoder.delivers_unpack_store hs buffer) _ _ 5
    bufferSize fun _ => by decide

-- If the bytes come one by one, the first that is read of the same stream is that of the magic.
theorem detect_overlooks :
    Gzip.magic <+: Gzip.store [42] ∧
    ∃ s t, (stream (Gzip.store [42]) ⟨1, [], by decide⟩).detect bufferSize = .ok s ∧
      (stream (Gzip.store [42]) plainSchedule).detect bufferSize = .ok t ∧
      answers [.chunk 1] s = [.ok (.chunk [0x1f])] ∧
      answers [.chunk 1] t = [.ok (.chunk [42])] := by
  have hm := Gzip.magic_prefix_store [42]
  have hanswers {s : Input} {b : UInt8} {bytes : List UInt8}
      (hs : s.Supplies (b :: bytes) .finished) : answers [.chunk 1] s = [.ok (.chunk [b])] := by
    have hs : s.Supplies ([b] ++ bytes) .finished := hs
    obtain ⟨t, ht, _⟩ : ∃ t, readChunk 1 s = .ok [b] t ∧ _ := hs.readChunk rfl Nat.one_pos
    have hcall : (Call.chunk 1).answer s = .ok (.chunk [b]) t := by
      rw [Call.answer, bind_of_ok ht]
      rfl
    simp only [answers, hcall]
  obtain ⟨after, hs⟩ := detect_eq unpack (Gzip.store [42]) ⟨1, [], by decide⟩ bufferSize
  obtain ⟨after', ht⟩ := detect_eq unpack (Gzip.store [42]) plainSchedule bufferSize
  rw [if_neg fun h => absurd h.2 (by decide)] at hs
  rw [if_pos ⟨hm, by decide⟩] at ht
  have hcontent := Decoder.delivers_unpack_store (s := stream (Gzip.store [42]) after')
    ⟨rfl, rfl, rfl⟩ bufferSize
  exact ⟨hm, _, _, hs, ht, hanswers ⟨rfl, rfl, rfl⟩, hanswers hcontent.supplies⟩

end Input

end TarGuard
