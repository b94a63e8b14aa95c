namespace TarGuard.Gzip

def crcShift (c : UInt32) : UInt32 :=
  if c &&& 1 = 1 then (c >>> 1) ^^^ 0xedb88320 else c >>> 1

def crcOfByte (b : UInt8) : UInt32 :=
  Nat.repeat crcShift 8 b.toUInt32

def crcTable : Array UInt32 :=
  Array.ofFn (n := 256) fun i => crcOfByte (.ofNat i)

def crcPush (c : UInt32) (b : UInt8) : UInt32 :=
  crcTable.getD ((c ^^^ b.toUInt32) &&& 0xff).toNat 0 ^^^ (c >>> 8)

def crc (bytes : List UInt8) : UInt32 :=
  bytes.foldl crcPush 0xffffffff ^^^ 0xffffffff

end TarGuard.Gzip
