namespace TarGuard.Utf8

def encode (s : String) : List UInt8 :=
  s.toList.flatMap String.utf8EncodeChar

def replacement : Char := '\uFFFD'

-- A character of which at least one byte was read: the bits so far, how many continuation bytes are
-- missing, and the range in which the next one must lie.
structure Pending where
  bits : Nat
  missing : Nat
  low : UInt8
  high : UInt8

-- The first byte of a character fixes its length. The bounds on the byte after it rule out long
-- forms of short characters, surrogates, and everything above U+10FFFF.
def start (b : UInt8) : List Char × Option Pending :=
  if b < 0x80 then
    ([Char.ofNat b.toNat], none)
  else if b < 0xc2 then
    ([replacement], none)
  else if b < 0xe0 then
    ([], some ⟨b.toNat % 32, 1, 0x80, 0xbf⟩)
  else if b < 0xf0 then
    ([], some ⟨b.toNat % 16, 2, if b = 0xe0 then 0xa0 else 0x80, if b = 0xed then 0x9f else 0xbf⟩)
  else if b < 0xf5 then
    ([], some ⟨b.toNat % 8, 3, if b = 0xf0 then 0x90 else 0x80, if b = 0xf4 then 0x8f else 0xbf⟩)
  else
    ([replacement], none)

def step : Option Pending → UInt8 → List Char × Option Pending
  | none, b => start b
  | some p, b =>
    if p.low ≤ b ∧ b ≤ p.high then
      let bits := p.bits * 64 + b.toNat % 64
      if p.missing = 1 then ([Char.ofNat bits], none)
      else ([], some ⟨bits, p.missing - 1, 0x80, 0xbf⟩)
    else
      (replacement :: (start b).1, (start b).2)

def decodeFrom : Option Pending → List UInt8 → List Char
  | none, [] => []
  | some _, [] => [replacement]
  | p, b :: bs => (step p b).1 ++ decodeFrom (step p b).2 bs

-- Reads bytes as text, with one `replacement` for each longest piece that could have begun a
-- character and did not.
def decodeLossy (bytes : List UInt8) : String :=
  String.ofList (decodeFrom none bytes)

end TarGuard.Utf8
