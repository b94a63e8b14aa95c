import Mathlib.Algebra.Ring.Nat
import TarGuard.FileSystem.Call
import TarGuard.Limits

namespace TarGuard

namespace FileSystem

variable {fs fs' : FileSystem} {base l : Location} {f : File}

def newFiles (fs fs' : FileSystem) : List (Location × File) :=
  fs'.nodes.toList.filterMap fun (l, node) =>
    match fs.node? l, node with
    | none, .file f => some (l, f)
    | _, _ => none

def newDirectories (base : Location) (fs fs' : FileSystem) : List Location :=
  fs'.nodes.toList.filterMap fun (l, node) =>
    match fs.node? l, node with
    | none, .directory _ => if base <:+ l ∧ l ≠ base then some l else none
    | _, _ => none

theorem of_mem_newFiles (h : (l, f) ∈ newFiles fs fs') :
    fs.node? l = none ∧ fs'.node? l = some (.file f) := by
  have ⟨(k, node), hm, hk⟩ := List.mem_filterMap.mp h
  have hn := Std.ExtTreeMap.mem_toList_iff_getElem?_eq_some.mp hm
  simp only at hk
  split at hk <;> cases hk
  exact ⟨‹_›, hn⟩

theorem of_mem_newDirectories (h : l ∈ newDirectories base fs fs') :
    fs.node? l = none ∧ (∃ mode, fs'.node? l = some (.directory mode)) ∧ base <:+ l ∧ l ≠ base := by
  have ⟨(k, node), hm, hk⟩ := List.mem_filterMap.mp h
  have hn := Std.ExtTreeMap.mem_toList_iff_getElem?_eq_some.mp hm
  simp only at hk
  split at hk
  case h_1 =>
    split at hk <;> cases hk
    exact ⟨‹_›, ⟨_, hn⟩, ‹_›⟩
  case h_2 => cases hk

theorem newFiles_self : newFiles fs fs = [] := by
  apply List.eq_nil_iff_forall_not_mem.mpr
  intro (l, f) hm
  have ⟨h₁, h₂⟩ := of_mem_newFiles hm
  cases h₁.symm.trans h₂

theorem newDirectories_self : newDirectories base fs fs = [] := by
  apply List.eq_nil_iff_forall_not_mem.mpr
  intro l hm
  have ⟨h₁, ⟨_, h₂⟩, _⟩ := of_mem_newDirectories hm
  cases h₁.symm.trans h₂

theorem nodup_filterMap_toList {pick : Location × Node → Option α} {place : α → Location}
    (hp : ∀ e a, pick e = some a → place a = e.1) (nodes : Std.ExtTreeMap Location Node) :
    ((nodes.toList.filterMap pick).map place).Nodup := by
  rw [List.Nodup, List.pairwise_map]
  refine nodes.distinct_keys_toList.filterMap pick fun e e' hne a ha a' ha' he => hne ?_
  rw [hp e a ha, hp e' a' ha'] at he
  rw [he]
  exact Std.ReflCmp.compare_self

theorem nodup_newFiles (fs fs' : FileSystem) : ((newFiles fs fs').map (·.1)).Nodup := by
  apply nodup_filterMap_toList
  intro (l, node) a h
  simp only at h
  split at h <;> cases h
  rfl

theorem nodup_newDirectories (base : Location) (fs fs' : FileSystem) :
    (newDirectories base fs fs').Nodup := by
  rw [← List.map_id (newDirectories base fs fs')]
  apply nodup_filterMap_toList
  intro (l, node) a h
  simp only at h
  split at h
  case h_1 =>
    split at h <;> cases h
    rfl
  case h_2 => cases h

end FileSystem

theorem sum_map_le_of_cover {as : List α} {bs : List β} {key : α → κ} {key' : β → κ} {w : α → Nat}
    {v : β → Nat} (hn : (as.map key).Nodup)
    (h : ∀ a ∈ as, ∃ b ∈ bs, key' b = key a ∧ w a ≤ v b) : (as.map w).sum ≤ (bs.map v).sum := by
  induction as generalizing bs with
  | nil => simp
  | cons a as ih =>
    have ⟨b, hb, hk, hw⟩ := h a List.mem_cons_self
    have ⟨bs₁, bs₂, he⟩ := List.append_of_mem hb
    subst he
    rw [List.map_cons, List.nodup_cons] at hn
    have hi : (as.map w).sum ≤ ((bs₁ ++ bs₂).map v).sum := by
      apply ih hn.2
      intro a' ha'
      have ⟨b', hb', hk', hw'⟩ := h a' (List.mem_cons_of_mem a ha')
      refine ⟨b', ?_, hk', hw'⟩
      have hne : b' ≠ b := by
        intro he
        subst he
        exact hn.1 (hk.symm.trans hk' ▸ List.mem_map_of_mem ha')
      simpa [hne] using hb'
    simp only [List.map_append, List.map_cons, List.sum_append, List.sum_cons] at *
    omega

end TarGuard
