namespace TarGuard.Octal

def isDigit (b : UInt8) : Bool :=
  0x30 ≤ b && b ≤ 0x37

def isFill (b : UInt8) : Bool :=
  b == 0x20 || b == 0

def digits (field : List UInt8) : List UInt8 :=
  (field.dropWhile isFill).takeWhile isDigit

def value (digits : List UInt8) : Nat :=
  digits.foldl (fun n d => n * 8 + (d.toNat - 0x30)) 0

def push? (n : UInt64) (d : UInt8) : Option UInt64 :=
  if n.toNat * 8 + (d.toNat - 0x30) < UInt64.size then some (n * 8 + (d - 0x30).toUInt64)
  else none

-- A field without digits, or with a number that does not fit, counts as zero.
def parse (field : List UInt8) : UInt64 :=
  ((digits field).foldlM push? 0).getD 0

def write : Nat → Nat → List UInt8
  | 0, _ => []
  | width + 1, n => write width (n / 8) ++ [.ofNat (0x30 + n % 8)]

theorem length_write (width n : Nat) : (write width n).length = width := by
  induction width generalizing n with
  | zero => rfl
  | succ width ih => simp [write, ih]

end TarGuard.Octal
