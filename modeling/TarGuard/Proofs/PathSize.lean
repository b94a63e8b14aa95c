import Mathlib.Algebra.BigOperators.Group.List.Basic
import Mathlib.Algebra.Ring.Nat
import TarGuard.Proofs.Leads
import TarGuard.Proofs.Utf8

namespace TarGuard

def byteLength (cs : List Char) : Nat :=
  (cs.flatMap String.utf8EncodeChar).length

section ByteLength

theorem byteLength_toList (s : String) : byteLength s.toList = s.utf8ByteSize :=
  Utf8.length_encode s

theorem utf8ByteSize_ofList (cs : List Char) : (String.ofList cs).utf8ByteSize = byteLength cs := by
  rw [← byteLength_toList, String.toList_ofList]

theorem byteLength_cons (c : Char) (cs : List Char) :
    byteLength (c :: cs) = c.utf8Size + byteLength cs := by
  rw [byteLength, List.flatMap_cons, List.length_append, String.length_utf8EncodeChar]
  rfl

theorem byteLength_append (cs ds : List Char) :
    byteLength (cs ++ ds) = byteLength cs + byteLength ds := by
  rw [byteLength, List.flatMap_append, List.length_append]
  rfl

theorem byteLength_replicate (n : Nat) (c : Char) :
    byteLength (List.replicate n c) = n * c.utf8Size := by
  induction n with
  | zero =>
    rw [Nat.zero_mul]
    rfl
  | succ n ih => rw [List.replicate_succ, byteLength_cons, ih, Nat.succ_mul, Nat.add_comm]

theorem sum_byteLength_splitOn (cs : List Char) :
    ((cs.splitOn '/').map fun l => byteLength l + 1).sum = byteLength cs + 1 := by
  induction cs with
  | nil => rfl
  | cons c cs ih =>
    rw [List.splitOn_cons_eq_if_modifyHead, byteLength_cons]
    by_cases hc : c = '/'
    case pos =>
      subst hc
      rw [if_pos (by decide), List.map_cons, List.sum_cons, ih]
      change 0 + 1 + _ = 1 + _ + 1
      omega
    case neg =>
      rw [if_neg (by simpa using hc)]
      cases hs : cs.splitOn '/' with
      | nil => exact absurd hs (List.splitOn_ne_nil '/' cs)
      | cons l ls =>
        rw [hs, List.map_cons, List.sum_cons] at ih
        rw [List.modifyHead_cons, List.map_cons, List.sum_cons, byteLength_cons]
        omega

theorem two_le_length_splitOn {cs : List Char} (h : '/' ∈ cs) : 2 ≤ (cs.splitOn '/').length := by
  cases hs : cs.splitOn '/' with
  | nil => exact absurd hs (List.splitOn_ne_nil '/' cs)
  | cons l ls =>
    cases ls with
    | nil =>
      -- The only piece would be the whole, and it has no slash.
      have hl : '/' ∉ l := Path.not_mem_of_mem_splitOn (hs ▸ List.mem_cons_self)
      have he : ['/'].intercalate (cs.splitOn '/') = cs := List.intercalate_splitOn '/'
      rw [hs, List.intercalate_singleton] at he
      exact absurd (he ▸ h) hl
    | cons => simp

theorem byteLength_le_of_mem_splitOn {l cs : List Char} (h : l ∈ cs.splitOn '/') :
    byteLength l + (cs.splitOn '/').length ≤ byteLength cs + 1 := by
  have hsum := sum_byteLength_splitOn cs
  obtain ⟨before, behind, hs⟩ := List.append_of_mem h
  have hone (ls : List (List Char)) : ls.length ≤ (ls.map fun l => byteLength l + 1).sum := by
    induction ls with
    | nil => exact Nat.le_refl _
    | cons l ls ih =>
      rw [List.map_cons, List.sum_cons, List.length_cons]
      omega
  have := hone before
  have := hone behind
  rw [hs, List.map_append, List.sum_append, List.map_cons, List.sum_cons] at hsum
  rw [hs, List.length_append, List.length_cons]
  omega

end ByteLength

namespace EntryPath

variable {path s : String}

theorem byteLength_dropTrailingSlash (cs : List Char) :
    byteLength (dropTrailingSlash cs) + (if cs.getLast? = some '/' then 1 else 0) =
      byteLength cs := by
  unfold dropTrailingSlash
  by_cases hl : cs.getLast? = some '/'
  case pos =>
    rw [if_pos hl, if_pos hl]
    obtain ⟨front, rfl⟩ := List.getLast?_eq_some_iff.mp hl
    rw [List.dropLast_concat, byteLength_append]
    rfl
  case neg => rw [if_neg hl, if_neg hl, Nat.add_zero]

theorem sum_utf8ByteSize_split (path : String) :
    ((split path).map fun s => s.utf8ByteSize + 1).sum ≤ path.utf8ByteSize + 1 := by
  have hs := sum_byteLength_splitOn (dropTrailingSlash path.toList)
  have hd := byteLength_dropTrailingSlash path.toList
  rw [byteLength_toList] at hd
  simp only [split, List.map_map, Function.comp_def, utf8ByteSize_ofList]
  omega

theorem utf8ByteSize_of_mem_split (h : s ∈ split path) : s.utf8ByteSize ≤ path.utf8ByteSize := by
  obtain ⟨l, hl, rfl⟩ := List.mem_map.mp h
  have hle := byteLength_le_of_mem_splitOn hl
  have hpos := List.length_pos_of_mem hl
  have hd := byteLength_dropTrailingSlash path.toList
  rw [byteLength_toList] at hd
  rw [utf8ByteSize_ofList]
  omega

theorem utf8ByteSize_lt_of_mem_split (h : s ∈ split path) (hs : '/' ∈ path.toList) :
    s.utf8ByteSize < path.utf8ByteSize := by
  obtain ⟨l, hl, rfl⟩ := List.mem_map.mp h
  have hle := byteLength_le_of_mem_splitOn hl
  have hpos := List.length_pos_of_mem hl
  have hd := byteLength_dropTrailingSlash path.toList
  rw [byteLength_toList] at hd
  rw [utf8ByteSize_ofList]
  by_cases hc : path.toList.getLast? = some '/'
  case pos =>
    rw [if_pos hc] at hd
    omega
  case neg =>
    rw [if_neg hc] at hd
    have he : dropTrailingSlash path.toList = path.toList := if_neg hc
    have := two_le_length_splitOn (he.symm ▸ hs)
    omega

end EntryPath

namespace FileSystem

theorem utf8ByteSize_pathTo_cons (names : List String) (name : String) :
    (pathTo (name :: names)).text.utf8ByteSize =
      (if names = [] then 0 else (pathTo names).text.utf8ByteSize) + 1 + name.utf8ByteSize := by
  by_cases hne : names = []
  case pos =>
    rw [if_pos hne, hne, text_pathTo_singleton, String.utf8ByteSize_append, Nat.zero_add]
    rfl
  case neg =>
    rw [if_neg hne, text_pathTo_cons hne, String.utf8ByteSize_append, String.utf8ByteSize_append]
    rfl

theorem utf8ByteSize_pathTo {names : List String} (hne : names ≠ []) :
    (pathTo names).text.utf8ByteSize = (names.map fun s => s.utf8ByteSize + 1).sum := by
  induction names with
  | nil => exact absurd rfl hne
  | cons s names ih =>
    rw [utf8ByteSize_pathTo_cons, List.map_cons, List.sum_cons]
    by_cases h : names = []
    case pos =>
      subst h
      simp [Nat.add_comm]
    case neg =>
      rw [if_neg h, ih h]
      omega

theorem utf8ByteSize_pathTo_le_cons (names : List String) (name : String) :
    (pathTo names).text.utf8ByteSize ≤ (pathTo (name :: names)).text.utf8ByteSize := by
  rw [utf8ByteSize_pathTo_cons]
  by_cases hne : names = []
  case pos =>
    rw [hne, pathTo_nil]
    change 1 ≤ _
    omega
  case neg =>
    rw [if_neg hne]
    omega

theorem utf8ByteSize_pathTo_le_of_suffix {names more : List String} (h : names <:+ more) :
    (pathTo names).text.utf8ByteSize ≤ (pathTo more).text.utf8ByteSize := by
  obtain ⟨front, rfl⟩ := h
  induction front with
  | nil => exact Nat.le_refl _
  | cons name front ih => exact Nat.le_trans ih (utf8ByteSize_pathTo_le_cons _ name)

theorem utf8ByteSize_pathTo_append (names root : List String) :
    (pathTo (names ++ root)).text.utf8ByteSize ≤
      (pathTo root).text.utf8ByteSize + (names.map fun s => s.utf8ByteSize + 1).sum := by
  induction names with
  | nil => exact Nat.le_refl _
  | cons s names ih =>
    rw [List.cons_append, utf8ByteSize_pathTo_cons, List.map_cons, List.sum_cons]
    split <;> omega

theorem utf8ByteSize_pathTo_of_suffix {path : String} {names root : List String}
    (h : names <:+ EntryPath.trail path) :
    (pathTo (names ++ root)).text.utf8ByteSize ≤
      (pathTo root).text.utf8ByteSize + 1 + path.utf8ByteSize := by
  obtain ⟨more, hm⟩ := h
  have hsum := EntryPath.sum_utf8ByteSize_split path
  have hle := utf8ByteSize_pathTo_append names root
  have ht : ((EntryPath.trail path).map fun s => s.utf8ByteSize + 1).sum =
      ((EntryPath.split path).map fun s => s.utf8ByteSize + 1).sum := by
    rw [EntryPath.trail, List.map_reverse, List.sum_reverse]
  rw [← hm, List.map_append, List.sum_append] at ht
  omega

end FileSystem

end TarGuard
