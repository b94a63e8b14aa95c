namespace TarGuard.Decimal

def isDigit (c : Char) : Bool :=
  '0' ≤ c && c ≤ '9'

def value (digits : List Char) : Nat :=
  digits.foldl (fun n c => n * 10 + (c.toNat - '0'.toNat)) 0

-- One sign `+` may stand before the digits.
def unsigned : List Char → List Char
  | '+' :: cs => cs
  | cs => cs

def read? (cs : List Char) : Option UInt64 :=
  let digits := unsigned cs
  if digits ≠ [] ∧ digits.all isDigit ∧ value digits < UInt64.size then
    some (.ofNat (value digits))
  else
    none

end TarGuard.Decimal
