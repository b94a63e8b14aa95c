namespace TarGuard

inductive EntryKind
  | directory
  | regular
  | hardLink
  | symbolicLink
  | other (flag : UInt8)
  deriving DecidableEq, Repr

def EntryKind.ofFlag (flag : UInt8) : EntryKind :=
  if flag = '5'.toUInt8 then directory
  else if flag = '0'.toUInt8 ∨ flag = 0 then regular
  else if flag = '1'.toUInt8 then hardLink
  else if flag = '2'.toUInt8 then symbolicLink
  else other flag

-- `leading` is the part of the path that is stored apart from `name`, and often empty.
@[ext]
structure Header where
  name : String
  leading : String := ""
  linkName : String := ""
  mode : UInt32 := 0
  size : UInt64 := 0
  modified : UInt64 := 0
  checksum : UInt64 := 0
  flag : UInt8 := '0'.toUInt8
  deriving DecidableEq, Repr

namespace Header

def regular (name : String) (mode : UInt32) (size : UInt64) : Header where
  name := name
  mode := mode
  size := size

def directory (name : String) : Header where
  name := name
  mode := 0o755
  flag := '5'.toUInt8

def kind (h : Header) : EntryKind :=
  .ofFlag h.flag

def fullPath (h : Header) : String :=
  if h.leading = "" then h.name else h.leading ++ "/" ++ h.name

end Header
end TarGuard
