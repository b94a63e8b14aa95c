import TarGuard.Text.Utf8

namespace TarGuard.FieldText

def content (field : List UInt8) : List UInt8 :=
  field.takeWhile (· ≠ 0)

def isPrintable (b : UInt8) : Bool :=
  b == 9 || (0x20 ≤ b && b ≤ 0x7e)

def read? (field : List UInt8) (bound : UInt64) : Option String :=
  let text := content field
  if text.length ≤ bound.toNat ∧ text.all isPrintable then
    some (String.ofList (text.map fun b => Char.ofNat b.toNat))
  else
    none

def readLossy (field : List UInt8) : String :=
  Utf8.decodeLossy (content field)

def fill (width : Nat) (bytes : List UInt8) : List UInt8 :=
  bytes.take width ++ List.replicate (width - bytes.length) 0

-- A text that is too long for its field loses its end.
def write (width : Nat) (s : String) : List UInt8 :=
  fill width (Utf8.encode s)

theorem length_write (width : Nat) (s : String) : (write width s).length = width := by
  simp [write, fill]
  omega

end TarGuard.FieldText
