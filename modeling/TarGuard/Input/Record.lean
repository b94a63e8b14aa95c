import TarGuard.Effect
import TarGuard.Error
import TarGuard.Header.Codec
import TarGuard.Input.Gather

namespace TarGuard.Input

-- The next header record, if the stream does not end here. A part of a record is no header.
def readBlock : EStateM ExtractError Input (Option Block) := fun s =>
  match h : s.gather 512 512 with
  | (bs, .filled, t) => .ok (some ⟨bs, length_gather h⟩) t
  | ([], .ended, t) => .ok none t
  | (_ :: _, .ended, t) => .error .invalidHeader t
  | (_, .broken, t) => .error .readFailed t

-- The next record of an archive. A zero block ends it like the end of the stream.
def readRecord : EStateM ExtractError Input (Option Block) := do
  return (← readBlock).filter fun b => !isZero b.bytes

def readChunk (n : Nat) : EStateM ExtractError Input (List UInt8) := fun s =>
  match s.gather n n with
  | (bs, .filled, t) => .ok bs t
  | (_, _, t) => .error .readFailed t

def skipRequest : Nat := 8192

def skip (n : Nat) : EStateM ExtractError Input Unit := fun s =>
  match s.gather skipRequest n with
  | (_, .filled, t) => .ok () t
  | (_, _, t) => .error .readFailed t

def skipPayload (h : Header) : EStateM ExtractError Input Unit := do
  skip (← require h.paddedSize)

theorem finalState_readBlock (s : Input) : finalState readBlock s = (s.gather 512 512).2.2 := by
  unfold finalState readBlock
  split <;> split at * <;> simp_all

theorem finalState_readChunk (n : Nat) (s : Input) :
    finalState (readChunk n) s = (s.gather n n).2.2 := by
  unfold finalState readChunk
  split <;> split at * <;> simp_all

theorem finalState_skip (n : Nat) (s : Input) :
    finalState (skip n) s = (s.gather skipRequest n).2.2 := by
  unfold finalState skip
  split <;> split at * <;> simp_all

def NotLonger (s t : Input) : Prop :=
  t.remaining.length ≤ s.remaining.length

instance : Std.Refl NotLonger where
  refl _ := Nat.le_refl _

instance : Trans NotLonger NotLonger NotLonger where
  trans h₁ h₂ := Nat.le_trans h₂ h₁

theorem notLonger_gather (most : Nat) (s : Input) (n : Nat) :
    s.NotLonger (s.gather most n).2.2 := by
  have := (sublist_gather most s n).length_le
  simp only [List.length_append] at this
  simp only [NotLonger]
  omega

theorem keeps_readChunk (n : Nat) : Keeps NotLonger (readChunk n) := fun s => by
  rw [finalState_readChunk]
  exact s.notLonger_gather n n

theorem keeps_skip (n : Nat) : Keeps NotLonger (skip n) := fun s => by
  rw [finalState_skip]
  exact s.notLonger_gather skipRequest n

theorem keeps_skipPayload (h : Header) : Keeps NotLonger (skipPayload h) :=
  Keeps.bind (Keeps.require _) fun _ => keeps_skip _

theorem sublist_readBlock {s t : Input} {b : Block} (h : readBlock s = .ok (some b) t) :
    (b.bytes ++ t.remaining).Sublist s.remaining := by
  have := sublist_gather 512 s 512
  unfold readBlock at h
  split at h <;> cases h
  simp_all

theorem sublist_readRecord {s t : Input} {b : Block} (h : readRecord s = .ok (some b) t) :
    (b.bytes ++ t.remaining).Sublist s.remaining := by
  simp only [readRecord, bind, EStateM.bind, pure, EStateM.pure] at h
  split at h
  · next o u ho =>
    simp only [EStateM.Result.ok.injEq, Option.filter_eq_some_iff] at h
    obtain ⟨⟨rfl, -⟩, rfl⟩ := h
    exact sublist_readBlock ho
  · cases h

end TarGuard.Input
