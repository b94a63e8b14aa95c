import TarGuard.Gzip.Member

namespace TarGuard.Gzip

def toLittleEndian : Nat → Nat → List UInt8
  | 0, _ => []
  | width + 1, n => .ofNat (n % 256) :: toLittleEndian width (n / 256)

def maxStored : Nat := 65535

def storeBlock (last : Bool) (bytes : List UInt8) : List UInt8 :=
  (if last then 1 else 0) :: toLittleEndian 2 bytes.length ++
    toLittleEndian 2 (maxStored - bytes.length) ++ bytes

def storeBlocks (bytes : List UInt8) : List UInt8 :=
  if maxStored < bytes.length then
    storeBlock false (bytes.take maxStored) ++ storeBlocks (bytes.drop maxStored)
  else
    storeBlock true bytes
termination_by bytes.length
decreasing_by
  simp only [List.length_drop, maxStored] at *
  omega

def store (bytes : List UInt8) : List UInt8 :=
  magic ++ [8, 0, 0, 0, 0, 0, 0, 0xff] ++ storeBlocks bytes ++
    toLittleEndian 4 (crc bytes).toNat ++ toLittleEndian 4 bytes.length

end TarGuard.Gzip
