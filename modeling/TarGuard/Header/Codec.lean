import TarGuard.Error
import TarGuard.Header.Basic
import TarGuard.Header.Block
import TarGuard.Header.Text

namespace TarGuard.Header

def octalField (width n : Nat) : List UInt8 :=
  Octal.write (width - 1) n ++ [0]

-- | field    | start | width |   | field     | start | width |
-- |----------|-------|-------|---|-----------|-------|-------|
-- | name     | 0     | 100   |   | checksum  | 148   | 8     |
-- | mode     | 100   | 8     |   | flag      | 156   | 1     |
-- | user     | 108   | 8     |   | link name | 157   | 100   |
-- | group    | 116   | 8     |   | magic     | 257   | 8     |
-- | size     | 124   | 12    |   | leading   | 345   | 155   |
-- | modified | 136   | 12    |   |           |       |       |
def front (h : Header) : List UInt8 :=
  FieldText.write 100 h.name ++
  octalField 8 h.mode.toNat ++
  octalField 8 0 ++
  octalField 8 0 ++
  octalField 12 h.size.toNat ++
  octalField 12 h.modified.toNat

def back (h : Header) : List UInt8 :=
  [h.flag] ++
  FieldText.write 100 h.linkName ++
  [0x75, 0x73, 0x74, 0x61, 0x72, 0, 0x30, 0x30] ++
  List.replicate 80 0 ++
  FieldText.write 155 h.leading ++
  List.replicate 12 0

theorem length_front (h : Header) : h.front.length = 148 := by
  simp [front, octalField, FieldText.length_write, Octal.length_write]

theorem length_back (h : Header) : h.back.length = 356 := by
  simp [back, FieldText.length_write]

def checksumField (sum : Nat) : List UInt8 :=
  Octal.write 6 sum ++ [0, 0x20]

def encode (h : Header) : Block where
  bytes := h.front ++ checksumField (Block.sum h.front + 8 * 0x20 + Block.sum h.back) ++ h.back
  size_eq := by simp [checksumField, length_front, length_back, Octal.length_write]

-- The checksum is looked at before anything else. The link name is informational.
def decode (b : Block) (bound : UInt64) : Except ExtractError Header :=
  if b.HasChecksum then
    match FieldText.read? (b.field 0 100) bound, FieldText.read? (b.field 345 155) bound with
    | some name, some leading =>
      let mode := Octal.parse (b.field 100 8)
      .ok {
        name := name
        leading := leading
        linkName := FieldText.readLossy (b.field 157 100)
        mode := if mode.toNat < UInt32.size then mode.toUInt32 else 0
        size := Octal.parse (b.field 124 12)
        modified := Octal.parse (b.field 136 12)
        checksum := Octal.parse b.checksumField
        flag := b.bytes.get ⟨156, by simp [b.size_eq]⟩
      }
    | _, _ => .error .invalidHeader
  else
    .error .invalidChecksum

def paddedSize (h : Header) : Except ExtractError Nat :=
  let n := h.size.toNat + (padding h.size).toNat
  if n < UInt64.size then .ok n else .error .fileTooLarge

end TarGuard.Header
