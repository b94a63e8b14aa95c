import TarGuard.Gzip.Member
import TarGuard.Input.Basic

namespace TarGuard.Gzip

structure Contents where
  bytes : List UInt8
  ending : Ending
  joints : List Nat := []

-- A decoder takes bytes in pieces and puts its output into a window, from which it is handed out.
-- It looks for the next piece as soon as it has used up the last, whatever is still in the window.
-- So when the bytes break off, output can be lost.
def windowSize : Nat := 32768

-- How much output there is when the last window that `n` bytes need is begun.
def windowStart (n : Nat) : Nat :=
  (n - 1) / windowSize * windowSize

def outputSize (bytes : List UInt8) : Nat :=
  (member bytes).1.size

def beforePiece (pieces : List Nat) (bytes : List UInt8) : List UInt8 :=
  bytes.take (bytes.length - pieces.headD bytes.length)

-- How much of the output gets into a window. If the last piece fills a window, and the bytes end
-- with what needs a new one, that waits for another piece.
def settledSize (pieces : List Nat) (bytes : List UInt8) : Nat :=
  let size := outputSize bytes
  let start := windowStart size
  if 0 < start ∧ outputSize bytes.dropLast ≤ start ∧ outputSize (beforePiece pieces bytes) < start
  then start else size

-- Where the output of the last piece begins, and each window that it needs besides.
def joints (pieces : List Nat) (bytes : List UInt8) : List Nat :=
  let start := settledSize pieces.tail (beforePiece pieces bytes)
  (List.range (settledSize pieces bytes)).filter fun n =>
    n = start ∨ start < n ∧ n % windowSize = 0

def contentsOfPart (bytes : List UInt8) (ending : Ending) (pieces : List Nat) : Contents :=
  match member bytes, ending with
  | (content, .inData), .finished => ⟨content.toList.take (settledSize pieces bytes), .broken, []⟩
  | (content, .inData), .broken | (content, .afterData), .broken =>
    ⟨content.toList.take (settledSize pieces bytes), .broken, joints pieces bytes⟩
  | (content, _), _ => ⟨content.toList, .broken, []⟩

-- What a gzip file contains of which these bytes can be read, in pieces of these lengths, last
-- first. After the last member there is nothing more.
def decode (bytes : List UInt8) (ending : Ending) (pieces : List Nat) : Contents :=
  match _h : member bytes with
  | (content, .complete []) => ⟨content.toList, ending, []⟩
  | (content, .complete (b :: rest)) =>
    let more := decode (b :: rest) ending pieces
    { more with
      bytes := content.toList ++ more.bytes
      joints := more.joints.map (content.size + ·) }
  | _ => contentsOfPart bytes ending pieces
termination_by bytes.length
decreasing_by exact length_member _h

theorem joints_decode_finished (bytes : List UInt8) (pieces : List Nat) :
    (decode bytes .finished pieces).joints = [] := by
  fun_induction decode bytes .finished pieces
  case case1 => rfl
  case case2 more ih => simp [more, ih]
  case case3 => unfold contentsOfPart; split <;> simp_all

end TarGuard.Gzip
