import TarGuard.Proofs.Detection

namespace TarGuard

-- A position in some bytes, behind which reads find the end or fail.
structure Cursor where
  bytes : List UInt8
  ending : Ending
  position : Nat := 0

namespace Cursor

def left (c : Cursor) : List UInt8 :=
  c.bytes.drop c.position

def advance (c : Cursor) (n : Nat) : Cursor :=
  { c with position := c.position + n }

def toEnd (c : Cursor) : Cursor :=
  c.advance c.left.length

def partOfBlock (c : Cursor) : Except ExtractError Input.Answer :=
  match c.ending with
  | .broken => .error .readFailed
  | .finished => if c.left = [] then .ok (.block none) else .error .invalidHeader

def ask (c : Cursor) (n : Nat) (answer : List UInt8 → Input.Answer) :
    Except ExtractError Input.Answer × Cursor :=
  if n ≤ c.left.length then (.ok (answer (c.left.take n)), c.advance n)
  else (.error .readFailed, c.toEnd)

def reply (c : Cursor) : Input.Call → Except ExtractError Input.Answer × Cursor
  | .block =>
    if h : 512 ≤ c.left.length then
      (.ok (.block (some ⟨c.left.take 512, List.length_take_of_le h⟩)), c.advance 512)
    else (c.partOfBlock, c.toEnd)
  | .chunk n => c.ask n .chunk
  | .skip n => c.ask n fun _ => .skipped

end Cursor

namespace Input

def reply (s : Input) (call : Call) : Except ExtractError Answer × Input :=
  match call.answer s with
  | .ok a t => (.ok a, t)
  | .error e t => (.error e, t)

def replies (reply : σ → Call → Except ExtractError Answer × σ) :
    List Call → σ → List (Except ExtractError Answer) × σ
  | [], s => ([], s)
  | call :: calls, s =>
    let (first, t) := reply s call
    let (others, last) := replies reply calls t
    (first :: others, last)

structure IsAt (s : Input) (c : Cursor) : Prop where
  joints    : s.joints = []
  remaining : s.remaining = c.left
  ending    : s.ending = c.ending
  delivered : s.delivered = c.position

variable {s : Input} {c : Cursor} {call : Call} {most n : Nat}

theorem gather_zero (s : Input) (most : Nat) : s.gather most 0 = ([], .filled, s) := by
  rw [gather, if_pos rfl]

namespace IsAt

theorem advance (h : s.IsAt c) (hn : n ≤ c.left.length) (schedule : Schedule) :
    IsAt { s.after n with schedule := schedule } (c.advance n) where
  joints := h.joints
  remaining := by simp only [after, h.remaining, Cursor.left, Cursor.advance, List.drop_drop]
  ending := h.ending
  delivered := by simp only [after, h.delivered, h.remaining, Nat.min_eq_left hn, Cursor.advance]

theorem toEnd (h : s.IsAt c) (hn : c.left.length < n) (schedule : Schedule) :
    IsAt { s.after n with schedule := schedule } c.toEnd := by
  have ha : s.after n = s.after c.left.length := by
    simp only [after, h.remaining, List.drop_length, List.drop_of_length_le (Nat.le_of_lt hn),
      Nat.min_eq_right (Nat.le_of_lt hn), Nat.min_self]
  rw [ha]
  exact h.advance (Nat.le_refl _) schedule

theorem gather (h : s.IsAt c) (hm : n = 0 ∨ 0 < most) (hn : n ≤ c.left.length) :
    ∃ t, s.gather most n = (c.left.take n, .filled, t) ∧ t.IsAt (c.advance n) := by
  rcases hm with rfl | hm
  case inl => exact ⟨s, by rw [gather_zero, List.take_zero], h⟩
  case inr =>
    obtain ⟨schedule, hg⟩ := gather_eq h.joints hm n
    refine ⟨_, ?_, h.advance hn schedule⟩
    rw [hg, stopAt, h.remaining, if_pos hn]

theorem gather_short (h : s.IsAt c) (hm : 0 < most) (hn : c.left.length < n) :
    ∃ stop t, s.gather most n = (c.left, stop, t) ∧ t.IsAt c.toEnd ∧
      (c.ending = .finished ∧ stop = .ended ∨ c.ending = .broken ∧ stop = .broken) := by
  obtain ⟨schedule, hg⟩ := gather_eq h.joints hm n
  refine ⟨_, _, by rw [hg, h.remaining, List.take_of_length_le (Nat.le_of_lt hn)],
    h.toEnd hn schedule, ?_⟩
  rw [stopAt, h.remaining, if_neg (Nat.not_le_of_lt hn), h.ending]
  cases c.ending with
  | finished => exact .inl ⟨rfl, rfl⟩
  | broken => exact .inr ⟨rfl, rfl⟩

end IsAt

theorem reply_of_ok {a : Answer} {t : Input} (h : call.answer s = .ok a t) :
    s.reply call = (.ok a, t) := by
  simp only [reply, h]

theorem reply_of_error {e : ExtractError} {t : Input} (h : call.answer s = .error e t) :
    s.reply call = (.error e, t) := by
  simp only [reply, h]

theorem readBlock_of_ended {bytes : List UInt8} {t : Input}
    (h : s.gather 512 512 = (bytes, .ended, t)) :
    readBlock s = if bytes = [] then .ok none t else .error .invalidHeader t := by
  unfold readBlock
  split <;> cases h.symm.trans ‹_›
  · rfl
  · rfl

theorem readBlock_of_broken {bytes : List UInt8} {t : Input}
    (h : s.gather 512 512 = (bytes, .broken, t)) : readBlock s = .error .readFailed t := by
  unfold readBlock
  split <;> cases h.symm.trans ‹_›
  rfl

-- One call: the stream replies what the cursor does, and is then where the cursor is.
namespace IsAt

theorem reply_block (h : s.IsAt c) :
    ∃ t, s.reply .block = ((c.reply .block).1, t) ∧ t.IsAt (c.reply .block).2 := by
  by_cases hn : 512 ≤ c.left.length
  case pos =>
    obtain ⟨t, hg, ht⟩ := h.gather (.inr (by decide : 0 < 512)) hn
    let b : Block := ⟨c.left.take 512, List.length_take_of_le hn⟩
    have hb : readBlock s = .ok (some b) t := readBlock_of_gather hg
    have ha : Call.block.answer s = .ok (.block (some b)) t := bind_of_ok hb
    simp only [Cursor.reply, dif_pos hn]
    exact ⟨t, reply_of_ok ha, ht⟩
  case neg =>
    obtain ⟨stop, t, hg, ht, hstop⟩ := h.gather_short (by decide : 0 < 512) (Nat.lt_of_not_le hn)
    simp only [Cursor.reply, dif_neg hn]
    refine ⟨t, ?_, ht⟩
    rcases hstop with ⟨he, rfl⟩ | ⟨he, rfl⟩
    case inl =>
      have hb := readBlock_of_ended hg
      by_cases hl : c.left = []
      case pos =>
        rw [if_pos hl] at hb
        have ha : Call.block.answer s = .ok (.block none) t := bind_of_ok hb
        simp only [reply_of_ok ha, Cursor.partOfBlock, he, if_pos hl]
      case neg =>
        rw [if_neg hl] at hb
        have ha : Call.block.answer s = .error .invalidHeader t := bind_of_error hb
        simp only [reply_of_error ha, Cursor.partOfBlock, he, if_neg hl]
    case inr =>
      have ha : Call.block.answer s = .error .readFailed t := bind_of_error (readBlock_of_broken hg)
      simp only [reply_of_error ha, Cursor.partOfBlock, he]

theorem reply_of_gather (h : s.IsAt c) (hm : n = 0 ∨ 0 < most) {f : List UInt8 → Answer}
    (hok : ∀ bytes t, s.gather most n = (bytes, .filled, t) → call.answer s = .ok (f bytes) t)
    (herror : ∀ bytes stop t, stop ≠ .filled → s.gather most n = (bytes, stop, t) →
      call.answer s = .error .readFailed t) :
    ∃ t, s.reply call = ((c.ask n f).1, t) ∧ t.IsAt (c.ask n f).2 := by
  by_cases hn : n ≤ c.left.length
  case pos =>
    obtain ⟨t, hg, ht⟩ := h.gather hm hn
    simp only [Cursor.ask, if_pos hn]
    exact ⟨t, reply_of_ok (hok _ t hg), ht⟩
  case neg =>
    have hlt := Nat.lt_of_not_le hn
    have hpos : 0 < most := hm.resolve_left (Nat.ne_zero_of_lt hlt)
    obtain ⟨stop, t, hg, ht, hstop⟩ := h.gather_short hpos hlt
    have hne : stop ≠ .filled := by rcases hstop with ⟨_, rfl⟩ | ⟨_, rfl⟩ <;> decide
    simp only [Cursor.ask, if_neg hn]
    exact ⟨t, reply_of_error (herror _ stop t hne hg), ht⟩

theorem reply_chunk (h : s.IsAt c) (n : Nat) :
    ∃ t, s.reply (.chunk n) = ((c.reply (.chunk n)).1, t) ∧ t.IsAt (c.reply (.chunk n)).2 := by
  refine h.reply_of_gather n.eq_zero_or_pos (fun bytes t hg => ?ok) fun bytes stop t hs hg => ?error
  case ok =>
    have hc : readChunk n s = .ok bytes t := by simp only [readChunk, hg]
    exact bind_of_ok hc
  case error =>
    have hc : readChunk n s = .error .readFailed t := by
      cases stop <;> simp_all [readChunk]
    exact bind_of_error hc

theorem reply_skip (h : s.IsAt c) (n : Nat) :
    ∃ t, s.reply (.skip n) = ((c.reply (.skip n)).1, t) ∧ t.IsAt (c.reply (.skip n)).2 := by
  have hm : 0 < skipRequest := by decide
  refine h.reply_of_gather (.inr hm) (fun bytes t hg => ?ok) fun bytes stop t hs hg => ?error
  case ok =>
    have hc : Input.skip n s = .ok () t := by simp only [Input.skip, hg]
    exact bind_of_ok hc
  case error =>
    have hc : Input.skip n s = .error .readFailed t := by
      cases stop <;> simp_all [Input.skip]
    exact bind_of_error hc

theorem reply (h : s.IsAt c) (call : Call) :
    ∃ t, s.reply call = ((c.reply call).1, t) ∧ t.IsAt (c.reply call).2 := by
  cases call with
  | block => exact h.reply_block
  | chunk n => exact h.reply_chunk n
  | skip n => exact h.reply_skip n

-- All calls: by induction on them, with the place of the cursor as the invariant.
theorem replies (h : s.IsAt c) (calls : List Call) :
    ∃ t, Input.replies Input.reply calls s = ((Input.replies Cursor.reply calls c).1, t) ∧
      t.IsAt (Input.replies Cursor.reply calls c).2 := by
  induction calls generalizing s c with
  | nil => exact ⟨s, rfl, h⟩
  | cons call calls ih =>
    obtain ⟨t, hr, ht⟩ := h.reply call
    obtain ⟨u, hrs, hu⟩ := ih ht
    refine ⟨u, ?_, hu⟩
    simp only [Input.replies, hr, hrs]

end IsAt

-- What can be read of some bytes if reads fail from a position on. A position behind their end is
-- not reached.
def readable (bytes : List UInt8) : Option Nat → List UInt8 × Ending
  | some position =>
    if position ≤ bytes.length then (bytes.take position, .broken) else (bytes, .finished)
  | none => (bytes, .finished)

def failing (bytes : List UInt8) (failure : Option Nat) (schedule : Schedule) : Input where
  remaining := (readable bytes failure).1
  ending := (readable bytes failure).2
  schedule := schedule

def cursor (bytes : List UInt8) (failure : Option Nat) : Cursor where
  bytes := (readable bytes failure).1
  ending := (readable bytes failure).2

-- Where a stream is and what it replies depends on the calls and the bytes alone, and to ask for no
-- bytes leaves it as it is.
theorem replies_refine_cursor (bytes : List UInt8) (failure : Option Nat) (schedule : Schedule) :
    (∀ calls, ∃ s, replies reply calls (failing bytes failure schedule) =
        ((replies Cursor.reply calls (cursor bytes failure)).1, s) ∧
      s.IsAt (replies Cursor.reply calls (cursor bytes failure)).2) ∧
    ∀ s : Input,
      s.reply (.chunk 0) = (.ok (.chunk []), s) ∧ s.reply (.skip 0) = (.ok .skipped, s) := by
  have hstart : (failing bytes failure schedule).IsAt (cursor bytes failure) := ⟨rfl, rfl, rfl, rfl⟩
  refine ⟨hstart.replies, fun s => ⟨?chunk, ?skip⟩⟩
  case chunk =>
    have hc : readChunk 0 s = .ok [] s := by simp only [readChunk, gather_zero]
    exact reply_of_ok (bind_of_ok hc)
  case skip =>
    have hc : Input.skip 0 s = .ok () s := by simp only [Input.skip, gather_zero]
    exact reply_of_ok (bind_of_ok hc)

end Input
end TarGuard
