import TarGuard.Error
import TarGuard.Gzip.Contents
import TarGuard.Input.Gather

namespace TarGuard.Input

def peek (s : Input) (wanted : Nat) : Except ExtractError (List UInt8 × Input) :=
  match _h : s.read wanted with
  | (.interrupted, t) => t.peek wanted
  | (.broken, _) => .error .readFailed
  | (.bytes bs, _) => .ok (bs, s)
termination_by s.schedule.interruptions.length
decreasing_by exact interruptions_of_read_interrupted _h

def decoderRequest : Nat := 32768

def pieces (wanted : Nat) (before : List Nat) (s : Input) : List Nat :=
  match _h : s.read wanted with
  | (.interrupted, t) => t.pieces wanted before
  | (.broken, _) => before
  | (.bytes [], _) => before
  | (.bytes (b :: bs), t) => t.pieces wanted ((b :: bs).length :: before)
termination_by s.remaining.length + s.schedule.interruptions.length
decreasing_by
  · exact lt_of_read_interrupted _h
  · exact lt_of_read_bytes _h

def decoderPieces (s : Input) (buffer : Nat) : List Nat :=
  match s.read buffer with
  | (.bytes bs, t) => t.pieces decoderRequest [bs.length]
  | _ => []

def unpack (s : Input) (buffer : Nat) : Input :=
  let contents := Gzip.decode s.remaining s.ending (s.decoderPieces buffer)
  .ofBytes contents.bytes contents.ending contents.joints

-- Makes a stream of what a compressed one contains, behind a buffer of some size.
abbrev Decoder := Input → Nat → Input

-- The stream of an archive. It is taken for compressed if the first bytes that come, at most
-- `buffer` of them, begin like a gzip file.
def detect (s : Input) (buffer : Nat) (decoder : Decoder := unpack) :
    Except ExtractError Input := do
  let (head, s) ← s.peek buffer
  return if Gzip.magic.isPrefixOf head then decoder s buffer else s

end TarGuard.Input
