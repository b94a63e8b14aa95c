import Mathlib.Algebra.Ring.Nat
import TarGuard.Gzip.Contents
import TarGuard.Gzip.Store

namespace TarGuard.Gzip

theorem littleEndian_toLittleEndian (width n : Nat) :
    littleEndian (toLittleEndian width n) = n % 256 ^ width := by
  induction width generalizing n with
  | zero => exact (Nat.mod_one n).symm
  | succ width ih =>
    have hb : (UInt8.ofNat (n % 256)).toNat = n % 256 := by
      rw [UInt8.toNat_ofNat', Nat.mod_mod]
    change (UInt8.ofNat (n % 256)).toNat + 256 * littleEndian (toLittleEndian width (n / 256)) = _
    rw [hb, ih, Nat.pow_succ', Nat.mod_mul]

theorem Bits.next?_cons {b : UInt8} {rest : List UInt8} {used : Nat} (h : used + 1 < 8) :
    next? ⟨b :: rest, used, Nat.lt_of_succ_lt h⟩ =
      some (b.toNat.testBit used, ⟨b :: rest, used + 1, h⟩) := by
  simp only [next?, dif_pos h]

section Blocks

variable {b : UInt8} {bytes rest : List UInt8} {out : Array UInt8}

theorem storedBlock_of_rest {s : Bits} (hl : bytes.length ≤ maxStored)
    (hs : s.rest = toLittleEndian 2 bytes.length ++
      toLittleEndian 2 (maxStored - bytes.length) ++ bytes ++ rest) :
    storedBlock s out = (out ++ bytes.toArray, some (.ofBytes rest)) := by
  rw [maxStored] at hl hs
  have hlow := littleEndian_toLittleEndian 2 bytes.length
  have hhigh := littleEndian_toLittleEndian 2 (65535 - bytes.length)
  rw [Nat.mod_eq_of_lt (by omega)] at hlow hhigh
  simp only [toLittleEndian, littleEndian, List.foldr_cons, List.foldr_nil, Nat.mul_zero,
    Nat.add_zero] at hlow hhigh
  simp only [toLittleEndian, List.cons_append, List.nil_append] at hs
  have hsum : bytes.length + (65535 - bytes.length) = 65535 := by omega
  rw [storedBlock, hs]
  simp only [hlow, hhigh, hsum, List.splitAt_eq, List.take_left, List.drop_left,
    List.foldl_push_eq_append', if_true]

theorem inflate_storeBlock (last : Bool) (hl : bytes.length ≤ maxStored) :
    inflate (.ofBytes (storeBlock last bytes ++ rest)) out =
      if last then (out ++ bytes.toArray, some (.ofBytes rest))
      else inflate (.ofBytes rest) (out ++ bytes.toArray) := by
  let b : UInt8 := if last then 1 else 0
  obtain ⟨data, hdata⟩ : ∃ data, data = toLittleEndian 2 bytes.length ++
      toLittleEndian 2 (maxStored - bytes.length) ++ bytes ++ rest := ⟨_, rfl⟩
  have hbytes : storeBlock last bytes ++ rest = b :: data := by
    rw [hdata]
    rfl
  have hlast : b.toNat.testBit 0 = last := by cases last <;> decide
  have hnext : (Bits.ofBytes (b :: data)).next? = some (last, ⟨b :: data, 1, by decide⟩) := by
    rw [← hlast]
    exact Bits.next?_cons (by decide)
  -- The two bits behind the first say that the block is stored, whether it is the last or not.
  have hkind : Bits.number? 2 ⟨b :: data, 1, by decide⟩ = some (0, ⟨b :: data, 3, by decide⟩) := by
    have h₁ : b.toNat.testBit 1 = false := by cases last <;> decide
    have h₂ : b.toNat.testBit 2 = false := by cases last <;> decide
    have hthird : Bits.next? ⟨b :: data, 2, by decide⟩ =
        some (false, ⟨b :: data, 3, by decide⟩) := by
      rw [← h₂]
      exact Bits.next?_cons (by decide)
    rw [Bits.number?, Bits.next?_cons (by decide), h₁]
    simp only [Option.bind_eq_bind, Option.bind_some, Bits.number?, hthird]
    rfl
  have hblock : block 0 ⟨b :: data, 3, by decide⟩ out =
      (out ++ bytes.toArray, some (.ofBytes rest)) :=
    storedBlock_of_rest hl hdata
  rw [hbytes, inflate]
  split <;> cases hnext.symm.trans ‹_›
  split <;> cases hkind.symm.trans ‹_›
  split <;> cases hblock.symm.trans ‹_›
  rfl

theorem inflate_storeBlocks (bytes rest : List UInt8) (out : Array UInt8) :
    inflate (.ofBytes (storeBlocks bytes ++ rest)) out =
      (out ++ bytes.toArray, some (.ofBytes rest)) := by
  fun_induction storeBlocks bytes generalizing out with
  | case1 bytes hlt ih =>
    have hl : (bytes.take maxStored).length ≤ maxStored := List.length_take_le _ _
    have hout : out ++ (bytes.take maxStored).toArray ++ (bytes.drop maxStored).toArray =
        out ++ bytes.toArray := by
      simp only [Array.append_assoc, List.append_toArray, List.take_append_drop]
    rw [List.append_assoc, inflate_storeBlock false hl, if_neg (by decide), ih, hout]
  | case2 bytes hlt =>
    rw [inflate_storeBlock true (Nat.le_of_not_lt hlt), if_pos rfl]

end Blocks

theorem dropTrailer?_store (bytes : List UInt8) :
    dropTrailer? bytes.toArray
      (toLittleEndian 4 (crc bytes).toNat ++ toLittleEndian 4 bytes.length) = some [] := by
  have hcrc := littleEndian_toLittleEndian 4 (crc bytes).toNat
  have hsize := littleEndian_toLittleEndian 4 bytes.length
  have hlt : (crc bytes).toNat < 256 ^ 4 := (crc bytes).toNat_lt
  rw [Nat.mod_eq_of_lt hlt] at hcrc
  exact if_pos ⟨hcrc, hsize⟩

theorem member_store (bytes : List UInt8) :
    member (store bytes) = (bytes.toArray, .complete []) := by
  obtain ⟨trailer, htrailer⟩ : ∃ trailer, trailer =
      toLittleEndian 4 (crc bytes).toNat ++ toLittleEndian 4 bytes.length := ⟨_, rfl⟩
  have hdrop : dropTrailer? bytes.toArray trailer = some [] := htrailer ▸ dropTrailer?_store bytes
  have hheader : dropHeader? (store bytes) = some (storeBlocks bytes ++ trailer) := by
    rw [store, List.append_assoc, ← htrailer]
    rfl
  have hend : endOf bytes.toArray trailer = .complete [] := by
    have hne : trailer ≠ [] := by
      rw [htrailer]
      exact List.cons_ne_nil _ _
    rw [endOf, if_neg hne, hdrop]
  have hdata := inflate_storeBlocks bytes trailer #[]
  rw [Array.empty_append] at hdata
  rw [member, hheader]
  simp only [hdata]
  rw [← hend]
  rfl

theorem decode_store (bytes : List UInt8) (ending : Ending) (pieces : List Nat) :
    decode (store bytes) ending pieces = ⟨bytes, ending, []⟩ := by
  have hm := member_store bytes
  rw [decode]
  split
  case h_1 h =>
    cases hm.symm.trans h
    rfl
  case h_2 h => cases hm.symm.trans h
  case h_3 h _ => exact absurd hm (h _)

theorem magic_prefix_store (bytes : List UInt8) : magic <+: store bytes := by
  rw [store]
  simp only [List.append_assoc]
  exact List.prefix_append _ _

end TarGuard.Gzip
