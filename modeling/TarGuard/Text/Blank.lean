namespace TarGuard.Blank

def isBlank (c : Char) : Bool :=
  let n := c.toNat
  (9 ≤ n && n ≤ 13) || n == 0x20 || n == 0x85 || n == 0xa0 || n == 0x1680 ||
  (0x2000 ≤ n && n ≤ 0x200a) || n == 0x2028 || n == 0x2029 || n == 0x202f || n == 0x205f ||
  n == 0x3000

theorem not_isBlank_of_digit {c : Char} (h : '0' ≤ c ∧ c ≤ '9') : ¬ isBlank c := by
  obtain ⟨h₁, h₂⟩ := h
  rw [Char.le_def, UInt32.le_iff_toNat_le] at h₁ h₂
  have hl : 48 ≤ c.toNat := h₁
  have hh : c.toNat ≤ 57 := h₂
  simp [isBlank]
  omega

def trim (cs : List Char) : List Char :=
  ((cs.dropWhile isBlank).reverse.dropWhile isBlank).reverse

theorem dropWhile_append {before core rest : List Char} (hb : ∀ c ∈ before, isBlank c)
    (hc : ∀ c ∈ core, ¬ isBlank c) (hne : core ≠ []) :
    (before ++ (core ++ rest)).dropWhile isBlank = core ++ rest := by
  rw [List.dropWhile_append_of_pos hb]
  obtain ⟨c, cs, rfl⟩ := List.exists_cons_of_ne_nil hne
  rw [List.cons_append, List.dropWhile_cons_of_neg (hc c List.mem_cons_self)]

end TarGuard.Blank
