import Mathlib.Data.Nat.Digits.Defs

namespace TarGuard.Digits

-- Whoever multiplies by the base before each digit gets what the digits say, of which the last
-- counts least.
theorem foldl_eq_ofDigits {α : Type} (base : Nat) (digit : α → Nat) (ds : List α) :
    ds.foldl (fun n d => n * base + digit d) 0 = Nat.ofDigits base (ds.map digit).reverse := by
  rw [Nat.ofDigits_eq_foldr, List.foldr_reverse, List.foldl_map]
  congr
  funext n d
  rw [Nat.cast_id, Nat.add_comm, Nat.mul_comm]

end TarGuard.Digits
