namespace TarGuard

inductive Ending
  | finished
  | broken
  deriving DecidableEq, Repr

-- How a stream hands out its bytes. This must not change what is read from it.
structure Schedule where
  -- The most bytes that one read delivers.
  most : Nat
  -- Positions at which a read fails once for each time they are listed.
  interruptions : List Nat
  most_pos : 0 < most

@[ext]
structure Input where
  remaining : List UInt8
  ending : Ending
  -- Positions where a read stops unless it begins at one of them. After a read that goes on behind
  -- the last of them nothing more comes.
  joints : List Nat := []
  -- Further positions where a read stops.
  cuts : List Nat := []
  -- How many bytes were delivered so far.
  delivered : Nat := 0
  schedule : Schedule

namespace Input

def plainSchedule : Schedule := ⟨UInt64.size - 1, [], by decide⟩

def ofBytes (bytes : List UInt8) (ending : Ending) (joints : List Nat) : Input where
  remaining := bytes
  ending := ending
  joints := joints
  schedule := plainSchedule

inductive Reading
  | bytes (bs : List UInt8)
  | interrupted
  | broken
  deriving DecidableEq

def distance? (s : Input) (positions : List Nat) : Option Nat :=
  ((positions.filter (s.delivered < ·)).map (· - s.delivered)).min?

def gap (s : Input) : Option Nat :=
  s.distance? s.schedule.interruptions

def toJoint (s : Input) : Option Nat :=
  if s.delivered ∈ s.joints then none else s.distance? s.joints

def toCut (s : Input) : Option Nat :=
  s.distance? s.cuts

def pieceLength (s : Input) (wanted : Nat) : Nat :=
  min (min wanted s.schedule.most)
    (min (s.gap.getD wanted) (min (s.toJoint.getD wanted) (s.toCut.getD wanted)))

def GoesOnAt (s : Input) (position : Nat) : Prop :=
  s.joints = [] ∨ ∃ n ∈ s.joints, position ≤ n

instance (s : Input) (position : Nat) : Decidable (s.GoesOnAt position) :=
  inferInstanceAs (Decidable (_ ∨ _))

-- One read of at most `wanted` bytes. No bytes at all mean the end of the stream.
def read (s : Input) (wanted : Nat) : Reading × Input :=
  if s.delivered ∈ s.schedule.interruptions then
    (.interrupted, { s with
      schedule := { s.schedule with
        interruptions := s.schedule.interruptions.erase s.delivered } })
  else if s.remaining = [] ∧ s.ending = .broken then
    (.broken, s)
  else
    let (piece, rest) := s.remaining.splitAt (s.pieceLength wanted)
    let position := s.delivered + piece.length
    (.bytes piece, { s with
      remaining := if s.GoesOnAt position then rest else []
      delivered := position })

end Input
end TarGuard
