import TarGuard.Header.Octal

namespace TarGuard

@[ext]
structure Block where
  bytes : List UInt8
  size_eq : bytes.length = 512
  deriving DecidableEq

namespace Block

def ofList? (bytes : List UInt8) : Option Block :=
  if h : bytes.length = 512 then some ⟨bytes, h⟩ else none

def field (b : Block) (start width : Nat) : List UInt8 :=
  (b.bytes.drop start).take width

def checksumField (b : Block) : List UInt8 :=
  b.field 148 8

def sum (bytes : List UInt8) : Nat :=
  bytes.foldr (fun b n => b.toNat + n) 0

-- The sum of all bytes, with the eight of the checksum field counted as spaces.
def checksum (b : Block) : Nat :=
  sum (b.bytes.take 148) + 8 * 0x20 + sum (b.bytes.drop 156)

def HasChecksum (b : Block) : Prop :=
  b.checksum = (Octal.parse b.checksumField).toNat

instance : DecidablePred HasChecksum :=
  fun b => inferInstanceAs (Decidable (b.checksum = _))

end Block

def isZero (bytes : List UInt8) : Bool :=
  bytes.all (· == 0)

def padding (size : UInt64) : UInt64 :=
  (512 - size % 512) % 512

end TarGuard
