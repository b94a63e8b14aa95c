import TarGuard.Header.Codec

namespace TarGuard

structure Entry where
  header : Header
  payload : List UInt8
  deriving DecidableEq

namespace Entry

-- The size in the header is written as it stands, also where it is not that of the payload.
def bytes (e : Entry) : List UInt8 :=
  e.header.encode.bytes ++ e.payload ++
    List.replicate (padding (.ofNat e.payload.length)).toNat 0

end Entry

namespace Archive

def endMark : List UInt8 :=
  List.replicate 1024 0

def write (entries : List Entry) : List UInt8 :=
  entries.flatMap Entry.bytes ++ endMark

end Archive
end TarGuard
